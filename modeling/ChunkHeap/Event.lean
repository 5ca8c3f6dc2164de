import ChunkHeap.Error

/-!
# Log events

What the heap, the collector, the native function table and the object model
report while they work. An `Event` carries the facts; its level, target, message
and fields follow from it, so that every consumer shows the same thing.
-/

namespace ChunkHeap
set_option autoImplicit false

/-- Severity of an event, from most to least detailed. -/
inductive Level where
  | trace
  | debug
  | info
  | warn
  | error
deriving DecidableEq

namespace Level

/-- The level's name in upper case. -/
def name : Level → String
  | trace => "TRACE"
  | debug => "DEBUG"
  | info => "INFO"
  | warn => "WARN"
  | error => "ERROR"

/-- Severity as a number: the larger, the graver. -/
def severity : Level → Nat
  | trace => 0
  | debug => 1
  | info => 2
  | warn => 3
  | error => 4

/-- Whether an event of this level passes a filter set to `limit`. -/
def passes (l limit : Level) : Bool :=
  limit.severity ≤ l.severity

end Level

/-- The four phases of a collection. -/
inductive Phase where
  | clear
  | roots
  | propagate
  | sweep
deriving DecidableEq

/-- Something worth reporting. -/
inductive Event where
  | allocated (tag : Tag) (slot chunkBytes : Nat)
  | released (slot chunkBytes : Nat)
  | outOfMemory (requested bytesFree : Nat)
  | heapReady (arenaBytes maxChunkBytes : Nat)
  | collectionStarted (liveObjects : Nat)
  | phase (p : Phase)
  | underConstruction (roots inFlight : Nat)
  /-- An edge or a root leads to a free slot. -/
  | strayEdge (slot : Nat)
  | marked (objects : Nat)
  | swept (slot : Nat) (tag : Tag)
  | sweepDone (objects bytesReclaimed : Nat)
  | collectionDone (collected liveObjects : Nat)
  | nativeCall (index args : Nat)
  | instantiating (cls : Nat)
  | instanceReady (slot : Nat)
  | instantiationFailed (cls : Nat) (cause : Error)
  | runtimeReady (arenaBytes liveObjects : Nat)
  | failure (cause : Error)
deriving DecidableEq

/-- The value of an event's field. -/
inductive FieldValue where
  | number (n : Nat)
  /-- Text that a plain log line shows in quotes. -/
  | text (s : String)
  /-- Text that a plain log line shows as it is. -/
  | bare (s : String)
deriving DecidableEq

namespace Event

def level : Event → Level
  | allocated .. | released .. | phase _ | swept .. => .trace
  | nativeCall .. | instantiating _ | instanceReady _ => .trace
  | heapReady .. | collectionStarted _ | underConstruction .. => .debug
  | marked _ | sweepDone .. | instantiationFailed .. => .debug
  | collectionDone .. | runtimeReady .. => .info
  | outOfMemory .. | strayEdge _ => .warn
  | failure _ => .error

/-- The part of the system that reports. -/
def target : Event → String
  | allocated .. | released .. | outOfMemory .. => "allocator"
  | heapReady .. => "mite_core::allocator"
  | collectionStarted _ | underConstruction .. | marked _ | sweepDone .. | collectionDone .. => "gc"
  | phase _ | strayEdge _ | swept .. => "mite_core::gc::collector"
  | nativeCall .. => "native"
  | instantiating _ | instanceReady _ | instantiationFailed .. => "mite_core::builtins::class"
  | runtimeReady .. => "mite_core"
  | failure _ => "runtime"

def message : Event → String
  | allocated .. => "chunk allocated"
  | released .. => "chunk released"
  | outOfMemory .. => "heap exhausted"
  | heapReady .. => "heap initialized"
  | collectionStarted _ => "starting garbage collection cycle"
  | phase .clear => "Phase 1: Marking all objects white"
  | phase .roots => "Phase 2: Marking from roots"
  | phase .propagate => "Phase 3: Propagating marks"
  | phase .sweep => "Phase 4: Sweeping unreachable objects"
  | underConstruction .. => "collecting with objects under construction"
  | strayEdge _ => "reference edge to a free slot ignored during marking"
  | marked _ => "mark phase complete"
  | swept .. => "swept unreachable object"
  | sweepDone .. => "sweep phase complete"
  | collectionDone .. => "garbage collection cycle complete"
  | nativeCall .. => "native function called"
  | instantiating _ => "instantiating"
  | instanceReady _ => "instance ready"
  | instantiationFailed .. => "instantiation failed"
  | runtimeReady .. => "runtime initialized"
  | failure _ => "runtime error"

/-- The facts of an event by name, in the order a log line shows them. -/
def fields : Event → List (String × FieldValue)
  | allocated tag slot bytes =>
    [("event", .text "allocation"), ("kind", .text tag.name), ("slot", .number slot),
      ("chunk_bytes", .number bytes)]
  | released slot bytes =>
    [("event", .text "free"), ("slot", .number slot), ("chunk_bytes", .number bytes)]
  | outOfMemory requested free =>
    [("event", .text "out_of_memory"), ("requested", .number requested), ("bytes_free", .number free)]
  | heapReady arena limit => [("arena_bytes", .number arena), ("max_chunk_bytes", .number limit)]
  | collectionStarted live => [("event", .text "gc_start"), ("live_objects", .number live)]
  | phase _ => []
  | underConstruction roots inFlight =>
    [("event", .text "gc_roots"), ("roots", .number roots), ("in_flight", .number inFlight)]
  | strayEdge slot => [("slot", .number slot)]
  | marked n => [("event", .text "gc_mark"), ("objects_marked", .number n)]
  | swept slot tag => [("slot", .number slot), ("kind", .text tag.name)]
  | sweepDone n bytes =>
    [("event", .text "gc_sweep"), ("objects_swept", .number n), ("bytes_reclaimed", .number bytes)]
  | collectionDone n live =>
    [("event", .text "gc_complete"), ("objects_collected", .number n), ("live_objects", .number live)]
  | nativeCall index args =>
    [("event", .text "native_call"), ("index", .number index), ("args", .number args)]
  | instantiating cls => [("class", .number cls)]
  | instanceReady inst => [("instance", .number inst)]
  | instantiationFailed cls cause => [("class", .number cls), ("error", .bare cause.display)]
  | runtimeReady arena live => [("arena_bytes", .number arena), ("live_objects", .number live)]
  | failure cause =>
    [("kind", .text cause.kind.name), ("code", .number cause.kind.code.toNat),
      ("message", .bare cause.message)]

end Event

end ChunkHeap

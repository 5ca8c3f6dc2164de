import ChunkHeap.Event
import ChunkHeap.Heap.Basic

/-!
# Mark and sweep

A collection clears all marks, shades the roots, shades whatever a shaded object
leads to until nothing new turns up, and releases every object left unshaded, in
slot order. Handles to free slots are met with a warning and otherwise ignored.

The shaded objects are kept in one array in the order in which they were met,
and each is scanned once, in that order. An object is shaded at most once, so as
many scans as there are slots suffice; that bound is the fuel of `Tracing.scan`.
-/

namespace ChunkHeap
set_option autoImplicit false

/-- The state of marking: the arena with its marks, the objects shaded so far,
and the handles that led to free slots. -/
structure Tracing where
  arena : Arena
  shaded : Array Handle := #[]
  stray : Array Handle := #[]

namespace Tracing

/-- Shade one object, unless it is shaded already or not live. -/
def shade (t : Tracing) (x : Handle) : Tracing :=
  match t.arena.get? x with
  | none => { t with stray := t.stray.push x }
  | some o =>
    if o.header.marked then t
    else { t with arena := t.arena.mark x, shaded := t.shaded.push x }

/-- Shade every object of a list, in order. -/
def shadeAll (t : Tracing) (xs : List Handle) : Tracing :=
  xs.foldl shade t

/-- The edges out of the object a handle names. -/
def edges (t : Tracing) (x : Handle) : List Handle :=
  match t.arena.get? x with
  | some o => o.payload.children
  | none => []

/-- Scan the shaded objects from position `i` on, shading what they lead to. -/
def scan : (fuel i : Nat) → Tracing → Tracing
  | 0, _, t => t
  | fuel + 1, i, t =>
    match t.shaded[i]? with
    | none => t
    | some x => scan fuel (i + 1) (t.shadeAll (t.edges x))

/-- Shade everything that the shaded objects lead to. -/
def propagate (t : Tracing) : Tracing :=
  scan t.arena.slots.size 0 t

end Tracing

namespace Arena

/-- Release the slot of an object, if it is live. -/
def discard (a : Arena) (x : Handle) : Arena :=
  match a.remove x with
  | some (_, b) => b
  | none => a

/-- Live objects without a mark, in slot order. -/
def unmarked (a : Arena) : List (Handle × Object) :=
  a.objects.filter fun (_, o) => !o.header.marked

/-- Release every object without a mark. -/
def sweep (a : Arena) : Arena :=
  a.unmarked.foldl (fun b (x, _) => b.discard x) a

end Arena

/-- Figures of one collection. -/
structure CollectStats where
  marked : Nat
  freed : Nat
  bytesReclaimed : Nat
deriving DecidableEq

/-- What one collection did: its figures, the heap it left, and what it reported. -/
structure Collection where
  stats : CollectStats
  heap : Heap
  events : List Event

namespace Heap

/-- Everything a collection keeps from: the roots, the constants and the pins
of this one collection. -/
def collectionRoots (h : Heap) (pins : List Handle) : List Handle :=
  h.roots.toList ++ h.constants.toList ++ pins

/-- Collect, keeping what the roots, the constants and `pins` lead to. -/
def collectWith (h : Heap) (pins : List Handle) : Collection :=
  let rooted := Tracing.shadeAll { arena := h.arena.clearMarks } (h.collectionRoots pins)
  let traced := Tracing.propagate { rooted with stray := #[] }
  let garbage := traced.arena.unmarked
  let bytes := total (fun e => e.2.header.chunkBytes) garbage
  let heap := { h with
    arena := traced.arena.sweep
    bytesInUse := h.bytesInUse - bytes
    collections := h.collections + 1 }
  let stray (xs : Array Handle) := xs.toList.map fun x => Event.strayEdge x.slot
  { stats := { marked := traced.shaded.size, freed := garbage.length, bytesReclaimed := bytes }
    heap := heap
    events :=
      [.collectionStarted h.arena.liveCount, .phase .clear, .phase .roots]
      ++ (if h.roots.inFlight = [] then []
          else [.underConstruction h.roots.toList.length h.roots.inFlight.length])
      ++ stray rooted.stray
      ++ [.phase .propagate] ++ stray traced.stray
      ++ [.marked traced.shaded.size, .phase .sweep]
      ++ garbage.map (fun (x, o) => .swept x.slot o.header.tag)
      ++ [.sweepDone garbage.length bytes, .collectionDone garbage.length heap.arena.liveCount] }

end Heap

end ChunkHeap

import ChunkHeap.Arena
import ChunkHeap.HeapConfig

/-!
# The heap

An arena together with the roots from which objects are kept, the byte budget
and its current use, and four shared constants. Everything here reads a heap or
changes it in one place; collection and allocation build on it.
-/

namespace ChunkHeap
set_option autoImplicit false

/-- Where reachability starts: the global namespace, objects pinned by active
frames, and objects that are still being built. -/
structure RootSet where
  globals : Option Handle := none
  stack : List Handle := []
  inFlight : List Handle := []
  /-- How many constructions are under way. -/
  constructions : Nat := 0
deriving DecidableEq

namespace RootSet

/-- Every root: globals, then frame roots, then objects under construction. -/
def toList (r : RootSet) : List Handle :=
  r.globals.toList ++ r.stack ++ r.inFlight

/-- The number of roots. -/
def size (r : RootSet) : Nat :=
  r.stack.length + r.inFlight.length + r.globals.toList.length

/-- Whether there is no root. -/
def isEmpty (r : RootSet) : Bool :=
  r.size = 0

theorem length_toList (r : RootSet) : r.toList.length = r.size := by
  simp [toList, size]
  omega

/-- Pin an object for an active frame. -/
def push (r : RootSet) (x : Handle) : RootSet :=
  { r with stack := r.stack ++ [x] }

/-- The object pinned last, and the roots without it. -/
def pop (r : RootSet) : Option Handle × RootSet :=
  (r.stack.getLast?, { r with stack := r.stack.dropLast })

/-- Drop frame roots down to `depth`. -/
def truncate (r : RootSet) (depth : Nat) : RootSet :=
  { r with stack := r.stack.take depth }

/-- Begin a construction. -/
def enter (r : RootSet) : RootSet :=
  { r with constructions := r.constructions + 1 }

/-- Keep an object while the current construction lasts. -/
def protect (r : RootSet) (x : Handle) : RootSet :=
  { r with inFlight := r.inFlight ++ [x] }

/-- End a construction that began when `depth` objects were under construction. -/
def leave (r : RootSet) (depth : Nat) : RootSet :=
  { r with inFlight := r.inFlight.take depth, constructions := r.constructions - 1 }

/-- A construction leaves the roots as it found them, whatever it protected. -/
theorem leave_enter (r : RootSet) (xs : List Handle) :
    (xs.foldl protect r.enter).leave r.inFlight.length = r := by
  have key : ∀ (xs : List Handle) (s : RootSet),
      xs.foldl protect s = { s with inFlight := s.inFlight ++ xs } := by
    intro xs
    induction xs with
    | nil => intro s; simp
    | cons x xs ih => intro s; simp [ih, protect]
  simp [key, leave, enter]

end RootSet

/-- The objects every heap is born with. -/
structure Constants where
  none : Handle
  minusOne : Handle
  zero : Handle
  one : Handle
deriving DecidableEq

namespace Constants

/-- The constants in the order in which they are made. -/
def toList (c : Constants) : List Handle :=
  [c.none, c.minusOne, c.zero, c.one]

/-- Stands in for the constants until they exist. -/
def unmade : Constants :=
  ⟨⟨0⟩, ⟨0⟩, ⟨0⟩, ⟨0⟩⟩

end Constants

/-- A heap of objects with a byte budget. -/
structure Heap where
  arena : Arena := {}
  roots : RootSet := {}
  config : HeapConfig := {}
  bytesInUse : Nat := 0
  collections : Nat := 0
  constants : Constants := .unmade
deriving DecidableEq

/-- Figures for monitoring a heap. -/
structure HeapStats where
  liveObjects : Nat
  freeSlots : Nat
  bytesInUse : Nat
  bytesFree : Nat
  collections : Nat
deriving DecidableEq

namespace Heap

/-- What is left of the budget. -/
def bytesFree (h : Heap) : Nat :=
  h.config.arenaBytes - h.bytesInUse

/-- Whether a chunk of `size` bytes stays within the budget. -/
def fits (h : Heap) (size : Nat) : Bool :=
  h.bytesInUse + size ≤ h.config.arenaBytes

def stats (h : Heap) : HeapStats where
  liveObjects := h.arena.liveCount
  freeSlots := h.arena.freeCount
  bytesInUse := h.bytesInUse
  bytesFree := h.bytesFree
  collections := h.collections

/-- Whether a handle names a live object. -/
def isLive (h : Heap) (x : Handle) : Bool :=
  (h.arena.get? x).isSome

/-- The object a handle names. -/
def object (h : Heap) (x : Handle) : Except Error Object :=
  match h.arena.get? x with
  | some o => .ok o
  | none => .error .dangling

/-- What the object holds. -/
def payload (h : Heap) (x : Handle) : Except Error Payload :=
  (h.object x).map Object.payload

/-- What the arena keeps beside the object. -/
def header (h : Heap) (x : Handle) : Except Error Header :=
  (h.object x).map Object.header

/-- The tag the object was allocated with. -/
def tagOf (h : Heap) (x : Handle) : Except Error Tag :=
  (h.header x).map Header.tag

/-- Refuses an object that was not allocated with the tag `expected`. -/
def expectTag (h : Heap) (x : Handle) (expected : Tag) : Except Error Unit := do
  let found ← h.tagOf x
  if found = expected then .ok () else .error (.mismatch expected found)

/-- The shared object for a small integer. -/
def intConstant? (h : Heap) (value : Int32) : Option Handle :=
  if value = -1 then some h.constants.minusOne
  else if value = 0 then some h.constants.zero
  else if value = 1 then some h.constants.one
  else none

/-- Replace what an object holds; its tag and the size it is charged stay. -/
def setPayload (h : Heap) (x : Handle) (p : Payload) : Heap :=
  { h with arena := h.arena.setPayload x p }

/-! ### One reader for each kind of object -/

def intValue (h : Heap) (x : Handle) : Except Error Int32 := do
  match ← h.payload x with
  | .int v => .ok v
  | p => .error (.mismatch .int p.tag)

def strText (h : Heap) (x : Handle) : Except Error String := do
  match ← h.payload x with
  | .str s => .ok s
  | p => .error (.mismatch .str p.tag)

/-- Whether an object is a string with this text. -/
def strEquals (h : Heap) (x : Handle) (text : String) : Except Error Bool := do
  match ← h.payload x with
  | .str s => .ok (s = text)
  | _ => .ok false

def tupleItems (h : Heap) (x : Handle) : Except Error (List Handle) := do
  match ← h.payload x with
  | .tuple items => .ok items
  | p => .error (.mismatch .tuple p.tag)

def listRecord (h : Heap) (x : Handle) : Except Error ListRecord := do
  match ← h.payload x with
  | .list r => .ok r
  | p => .error (.mismatch .list p.tag)

def dictRecord (h : Heap) (x : Handle) : Except Error DictRecord := do
  match ← h.payload x with
  | .dict r => .ok r
  | p => .error (.mismatch .dict p.tag)

def functionRecord (h : Heap) (x : Handle) : Except Error FunctionRecord := do
  match ← h.payload x with
  | .function r => .ok r
  | p => .error (.mismatch .function p.tag)

/-- The record of a class; an instance is refused. -/
def templateRecord (h : Heap) (x : Handle) : Except Error ClassRecord := do
  match ← h.payload x with
  | .cls r => .ok r
  | p => .error (.mismatch .cls p.tag)

/-- The record of a class or an instance. -/
def classRecord (h : Heap) (x : Handle) : Except Error ClassRecord := do
  match ← h.payload x with
  | .cls r | .inst r => .ok r
  | p => .error (.mismatch .cls p.tag)

def methodRecord (h : Heap) (x : Handle) : Except Error MethodRecord := do
  match ← h.payload x with
  | .method r => .ok r
  | p => .error (.mismatch .method p.tag)

def sliceRecord (h : Heap) (x : Handle) : Except Error SliceRecord := do
  match ← h.payload x with
  | .slice r => .ok r
  | p => .error (.mismatch .slice p.tag)

def segListRecord (h : Heap) (x : Handle) : Except Error SegListRecord := do
  match ← h.payload x with
  | .seglist r => .ok r
  | p => .error (.mismatch .seglist p.tag)

/-- A link of a segment chain; anything else breaks the chain. -/
def segmentRecord (h : Heap) (x : Handle) : Except Error SegmentRecord := do
  match ← h.payload x with
  | .segment r => .ok r
  | _ => .error .brokenChain

end Heap

end ChunkHeap

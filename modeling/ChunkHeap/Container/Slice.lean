import ChunkHeap.Container.Position
import ChunkHeap.Machine

/-!
# Slices

A slice names every `step`-th position from `start` up to `stop`. Each of the
three is an integer object or absent, and None counts as absent. An absent start
is 0, an absent stop the length, an absent step 1.
-/

namespace ChunkHeap
set_option autoImplicit false

open HeapM

namespace Heap

/-- A bound of a new slice: an integer object stays, None becomes absent. -/
def sliceBound (h : Heap) : Option Handle → Except Error (Option Handle)
  | none => .ok none
  | some x => do
    match ← h.tagOf x with
    | .none => .ok none
    | .int => .ok (some x)
    | found => .error (.badBound found)

/-- The record of a slice with these bounds; a negative step is refused. -/
def sliceOf (h : Heap) (start stop step : Option Handle) : Except Error SliceRecord := do
  let start ← h.sliceBound start
  let stop ← h.sliceBound stop
  let step ← h.sliceBound step
  match step with
  | none => return { start, stop, step }
  | some x =>
    let v ← h.intValue x
    if v < 0 then throw .negativeSliceStep else return { start, stop, step }

/-- The value of a bound, or the default of an absent one. -/
def boundValue (h : Heap) (bound : Option Handle) (default : Int) : Except Error Int :=
  match bound with
  | some x => (h.intValue x).map Int32.toInt
  | none => .ok default

/-- Start, stop and step of a slice of a sequence with this length. -/
def sliceIndices (h : Heap) (slice : Handle) (length : Nat) : Except Error (Int × Int × Int) := do
  let r ← h.sliceRecord slice
  let start ← h.boundValue r.start 0
  let stop ← h.boundValue r.stop (Position.signedWord length)
  let step ← h.boundValue r.step 1
  return (start, stop, step)

end Heap

namespace SliceObject

/-- A slice; its bounds are checked before anything is allocated. -/
def new (start stop step : Option Handle) : HeapM Handle := do
  let r ← inspect fun h => h.sliceOf start stop step
  allocate (.slice r)

end SliceObject

end ChunkHeap

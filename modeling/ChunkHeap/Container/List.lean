import ChunkHeap.Compare
import ChunkHeap.Container.Slice
import ChunkHeap.SegList.Update

/-!
# Lists

A list is a segmented list with its length kept beside it. Elements are named by
index (`Position.element?`); insertion and slice bounds are clamped into the list
instead of failing.

Operations that build a new list, or that may need to allocate between several
changes, run as constructions, so that a collection in between keeps what they
have made.
-/

namespace ChunkHeap
set_option autoImplicit false

namespace Heap

/-- The number of elements of a list. -/
def listLength (h : Heap) (list : Handle) : Except Error Nat :=
  (h.listRecord list).map ListRecord.length

/-- The elements of a list, in order. -/
def listItems (h : Heap) (list : Handle) : Except Error (List Handle) := do
  let r ← h.listRecord list
  h.segListItems r.storage

end Heap

namespace ListObject

open HeapM

/-- Change the record of a list. -/
def modifyRecord (list : Handle) (f : ListRecord → ListRecord) : HeapM Unit := do
  let r ← inspect fun h => h.listRecord list
  modify fun h => h.setPayload list (.list (f r))

/-- The element of a list that an index names, as a position. -/
def position (r : ListRecord) (index : Int) : HeapM Nat :=
  match Position.element? index r.length with
  | some i => return i
  | none => throw .listRange

/-- An empty list. -/
def new : HeapM Handle := do
  let storage ← SegList.new
  allocate (.list { length := 0, storage })

/-- Append an element. -/
def append (list x : Handle) : HeapM Unit := do
  let r ← inspect fun h => h.listRecord list
  SegList.append r.storage x
  modifyRecord list fun r => { r with length := r.length + 1 }

/-- The element that an index names. -/
def get (list : Handle) (index : Int) : HeapM Handle := do
  let r ← inspect fun h => h.listRecord list
  let i ← position r index
  SegList.get r.storage i

/-- Replace the element that an index names. -/
def set (list : Handle) (index : Int) (x : Handle) : HeapM Unit := do
  let r ← inspect fun h => h.listRecord list
  let i ← position r index
  SegList.set r.storage i x

/-- Insert an element before the position nearest to an index. -/
def insert (list : Handle) (index : Int) (x : Handle) : HeapM Unit := do
  let r ← inspect fun h => h.listRecord list
  SegList.insert r.storage x (Position.clamp index 0 r.length)
  modifyRecord list fun r => { r with length := r.length + 1 }

/-- Remove the element that an index names. -/
def removeAt (list : Handle) (index : Int) : HeapM Unit := do
  let r ← inspect fun h => h.listRecord list
  let i ← position r index
  SegList.remove r.storage i
  modifyRecord list fun r => { r with length := r.length - 1 }

/-- The first of `count` positions from `i` on whose element equals `value`. -/
def findFrom (storage value : Handle) : (count i : Nat) → HeapM Nat
  | 0, _ => throw .notInList
  | count + 1, i => do
    let x ← SegList.get storage i
    match ← inspect fun h => h.compare x value with
    | .same => return i
    | .differ => findFrom storage value count (i + 1)

/-- The position of the first element that equals `value`. -/
def indexOf (list value : Handle) : HeapM Nat := do
  let r ← inspect fun h => h.listRecord list
  findFrom r.storage value r.length 0

/-- Remove the first element that equals `value`. -/
def remove (list value : Handle) : HeapM Unit := do
  let i ← indexOf list value
  removeAt list i

/-- Remove all elements. -/
def clear (list : Handle) : HeapM Unit := do
  let r ← inspect fun h => h.listRecord list
  SegList.clear r.storage
  modifyRecord list fun r => { r with length := 0 }

/-- Append to `target` the references of a segmented list at the `count`
positions `i`, `i + step`, … -/
def copyEvery (storage target : Handle) (step : Nat) : (count i : Nat) → HeapM Unit
  | 0, _ => return ()
  | count + 1, i => do
    let x ← SegList.get storage i
    append target x
    copyEvery storage target step count (i + step)

/-- A new list with the elements of `list`, `count` times over. -/
def replicate (list : Handle) (count : Int) : HeapM Handle := do
  let r ← inspect fun h => h.listRecord list
  guarded do
    let result ← new
    protect result
    -- an empty list stays empty however often it is repeated
    let rounds := if r.length = 0 then 0 else count.toNat
    times rounds (copyEvery r.storage result 1 r.length 0)
    return result

/-- A new list with the same elements. -/
def copy (list : Handle) : HeapM Handle :=
  replicate list 1

/-- A new list of every `step`-th element from `start` up to `stop`. -/
def slice (list : Handle) (start stop step : Int) : HeapM Handle := do
  let r ← inspect fun h => h.listRecord list
  let step ← inspect fun _ => Position.checkStep step
  let start := Position.clamp start 0 r.length
  let stop := Position.clamp stop 0 r.length
  guarded do
    let result ← new
    protect result
    copyEvery r.storage result step (Position.stepCount start stop step) start
    return result

/-- A new list of the elements that a slice object names. -/
def sliceBy (list slice : Handle) : HeapM Handle := do
  let length ← inspect fun h => h.listLength list
  let (start, stop, step) ← inspect fun h => h.sliceIndices slice length
  ListObject.slice list start stop step

/-- Store elements at consecutive positions from `i` on. -/
def storeFrom (list : Handle) : (i : Nat) → List Handle → HeapM Unit
  | _, [] => return ()
  | i, x :: xs => do
    set list i x
    storeFrom list (i + 1) xs

/-- Keep the elements that a list supplies to itself until the construction ends. -/
def keepOwn (list source : Handle) (items : List Handle) : HeapM Unit :=
  if source = list then forEach protect items else return ()

/-- Replace the elements from `start` up to `stop` by those of a list or tuple.
The list first shrinks or grows, by None, to its new length; when it supplies its
own elements, they are kept meanwhile. -/
def storeSlice (list : Handle) (start stop : Int) (source : Handle) : HeapM Unit := do
  let r ← inspect fun h => h.listRecord list
  let items ← inspect fun h => h.sequenceItems source
  let start := Position.clamp start 0 r.length
  let stop := Position.clamp stop start r.length
  let target := r.length - (stop - start) + items.length
  guarded do
    keepOwn list source items
    let h ← heap
    times (r.length - target) (removeAt list start)
    times (target - r.length) (insert list start h.constants.none)
    storeFrom list start items

end ListObject

end ChunkHeap

import ChunkHeap.Machine

/-!
# Segmented lists: reading

A segmented list holds references in a chain of segments, `segmentCapacity` to a
segment, so that growing takes one small chunk at a time. Every segment but the
last is full, and an empty list has no segments.

Reading the whole chain (`Heap.segListItems`) follows the links from the head.
Access by position (`SegList.locate`) may start at the cursor instead, the
segment the previous access came to, and moves the cursor to where it ends.

A chain that never repeats a segment has no more links than the arena has slots;
that bound is the fuel of the walks over a whole chain.
-/

namespace ChunkHeap
set_option autoImplicit false

namespace Heap

/-- The references along a chain of at most `fuel` segments. -/
def chainItems (h : Heap) : (fuel : Nat) → Option Handle → Except Error (List Handle)
  | _, none => .ok []
  | 0, some _ => .error .brokenChain
  | fuel + 1, some seg => do
    let r ← h.segmentRecord seg
    let rest ← h.chainItems fuel r.next
    return r.items ++ rest

/-- The number of segments along a chain of at most `fuel` segments. -/
def chainLength (h : Heap) : (fuel : Nat) → Option Handle → Except Error Nat
  | _, none => .ok 0
  | 0, some _ => .error .brokenChain
  | fuel + 1, some seg => do
    let r ← h.segmentRecord seg
    let rest ← h.chainLength fuel r.next
    return rest + 1

/-- All references of a segmented list, in order. Their number has to be the
length on record. -/
def segListItems (h : Heap) (list : Handle) : Except Error (List Handle) := do
  let r ← h.segListRecord list
  let items ← h.chainItems h.arena.slots.size r.head
  if items.length = r.length then .ok items else .error .brokenChain

/-- The number of references, as on record. -/
def segListLength (h : Heap) (list : Handle) : Except Error Nat :=
  (h.segListRecord list).map SegListRecord.length

/-- The number of segments in the chain. -/
def segmentCount (h : Heap) (list : Handle) : Except Error Nat := do
  let r ← h.segListRecord list
  h.chainLength h.arena.slots.size r.head

/-- The segment `n` links further on. -/
def walk (h : Heap) : (n : Nat) → Handle → Except Error Handle
  | 0, seg => .ok seg
  | n + 1, seg => do
    let r ← h.segmentRecord seg
    match r.next with
    | some next => h.walk n next
    | none => .error .brokenChain

/-- Segment number `target` of a chain, counted from the head. -/
def seekFromHead (h : Heap) (r : SegListRecord) (target : Nat) : Except Error Handle :=
  match r.head with
  | some head => h.walk target head
  | none => .error .brokenChain

/-- Segment number `target` of a chain, starting at the cursor unless that lies
further on. -/
def seek (h : Heap) (r : SegListRecord) (target : Nat) : Except Error Handle :=
  match r.cursor with
  | some (number, seg) =>
    if number ≤ target then h.walk (target - number) seg else h.seekFromHead r target
  | none => h.seekFromHead r target

end Heap

namespace SegList

open HeapM

/-- Change the record of a segmented list. -/
def modifyRecord (list : Handle) (f : SegListRecord → SegListRecord) : HeapM Unit := do
  let r ← inspect fun h => h.segListRecord list
  modify fun h => h.setPayload list (.seglist (f r))

/-- Change one segment. -/
def modifySegment (seg : Handle) (f : SegmentRecord → SegmentRecord) : HeapM Unit := do
  let r ← inspect fun h => h.segmentRecord seg
  modify fun h => h.setPayload seg (.segment (f r))

/-- The segment that holds position `index`, and the place in it. The cursor
moves to that segment. -/
def locate (list : Handle) (index : Nat) : HeapM (Handle × Nat) := do
  let r ← inspect fun h => h.segListRecord list
  if index < r.length then
    let target := index / segmentCapacity
    let seg ← inspect fun h => h.seek r target
    modify fun h => h.setPayload list (.seglist { r with cursor := some (target, seg) })
    return (seg, index % segmentCapacity)
  else
    throw .segListRange

/-- The reference at position `index`. -/
def get (list : Handle) (index : Nat) : HeapM Handle := do
  let (seg, offset) ← locate list index
  let r ← inspect fun h => h.segmentRecord seg
  match r.items[offset]? with
  | some x => return x
  | none => throw .brokenChain

end SegList

end ChunkHeap

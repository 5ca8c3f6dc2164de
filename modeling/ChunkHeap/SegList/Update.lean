import ChunkHeap.SegList.Basic

/-!
# Segmented lists: updates

Insertion makes room by moving the last reference of each full segment to the
next one; removal closes the gap by moving the first reference of each later
segment back. Both keep every segment but the last full. An insertion into a
list whose last segment is full allocates the next segment before anything
moves, so a failed allocation changes nothing.
-/

namespace ChunkHeap
set_option autoImplicit false

namespace SegList

open HeapM

/-- An empty list. -/
def new : HeapM Handle :=
  allocate (.seglist {})

/-- Start the chain of a list with a segment that holds `x`. -/
def startChain (list x : Handle) : HeapM Unit := do
  let seg ← allocate (.segment { items := [x] })
  modifyRecord list fun r => { r with head := some seg, tail := some seg }

/-- Continue the chain of a list behind `tail` with a segment that holds `x`. -/
def extendChain (list tail x : Handle) : HeapM Unit := do
  let seg ← allocate (.segment { items := [x] })
  modifySegment tail fun s => { s with next := some seg }
  modifyRecord list fun r => { r with tail := some seg }

/-- Put a reference behind the last one of a list with record `r`. -/
def placeLast (list : Handle) (r : SegListRecord) (x : Handle) : HeapM Unit :=
  match r.tail with
  | none => startChain list x
  | some tail =>
    if r.length % segmentCapacity = 0 then
      extendChain list tail x
    else
      modifySegment tail fun s => { s with items := s.items ++ [x] }

/-- Append a reference, in a new segment if the last one is full. -/
def append (list x : Handle) : HeapM Unit := do
  let r ← inspect fun h => h.segListRecord list
  placeLast list r x
  modifyRecord list fun r => { r with length := r.length + 1 }

/-- Put `carry` at `offset` of a segment. The last reference of a full segment
goes to the front of the next one, and `spare` follows the last segment. -/
def pushAlong (list : Handle) : (fuel : Nat) → (spare : Option Handle) →
    (seg : Handle) → (offset : Nat) → (carry : Handle) → HeapM Unit
  | 0, _, _, _, _ => throw .brokenChain
  | fuel + 1, spare, seg, offset, carry => do
    let r ← inspect fun h => h.segmentRecord seg
    if r.items.length < segmentCapacity then
      modifySegment seg fun s => { s with items := s.items.insertIdx offset carry }
    else
      match r.items.getLast? with
      | none => throw .brokenChain
      | some overflow =>
        modifySegment seg fun s => { s with items := s.items.dropLast.insertIdx offset carry }
        match r.next, spare with
        | some next, _ => pushAlong list fuel spare next 0 overflow
        | none, some fresh =>
          modifySegment seg fun s => { s with next := some fresh }
          modifyRecord list fun r => { r with tail := some fresh }
          pushAlong list fuel none fresh 0 overflow
        | none, none => throw .brokenChain

/-- The segment that an insertion into a list of this length will need behind the
last one, if that is full. The reference to insert is kept meanwhile. -/
def spareFor (length : Nat) (x : Handle) : HeapM (Option Handle) :=
  if length % segmentCapacity = 0 then
    some <$> allocatePinned (.segment {}) [x]
  else
    return none

/-- Insert a reference before position `index`; the length itself appends. -/
def insert (list x : Handle) (index : Nat) : HeapM Unit := do
  let length ← inspect fun h => h.segListLength list
  if length < index then
    throw .segListInsertRange
  else if index = length then
    append list x
  else
    let spare ← spareFor length x
    let (seg, offset) ← locate list index
    let h ← heap
    pushAlong list h.arena.slots.size spare seg offset x
    modifyRecord list fun r => { r with length := r.length + 1, cursor := none }

/-- Replace the reference at position `index`. -/
def set (list : Handle) (index : Nat) (x : Handle) : HeapM Unit := do
  let (seg, offset) ← locate list index
  let r ← inspect fun h => h.segmentRecord seg
  if offset < r.items.length then
    modifySegment seg fun s => { s with items := s.items.set offset x }
  else
    throw .brokenChain

/-- Move the first reference of each segment after `seg` back by one segment.
Gives the last segment of the chain. -/
def pullAlong : (fuel : Nat) → (seg : Handle) → HeapM Handle
  | 0, _ => throw .brokenChain
  | fuel + 1, seg => do
    let r ← inspect fun h => h.segmentRecord seg
    match r.next with
    | none => return seg
    | some next =>
      let s ← inspect fun h => h.segmentRecord next
      match s.items with
      | [] => throw .brokenChain
      | first :: _ =>
        modifySegment next fun s => { s with items := s.items.tail }
        modifySegment seg fun s => { s with items := s.items ++ [first] }
        pullAlong fuel next

/-- End the chain of a list at the segment that holds its last reference. -/
def trimChain (list : Handle) (length : Nat) : HeapM Unit := do
  if length = 0 then
    modifyRecord list fun r => { r with head := none, tail := none }
  else
    let (newTail, _) ← locate list (length - 1)
    modifySegment newTail fun s => { s with next := none }
    modifyRecord list fun r => { r with tail := some newTail }

/-- Release the last segment of a list if it is empty. -/
def dropEmptyTail (list seg : Handle) (length : Nat) : HeapM Unit := do
  let s ← inspect fun h => h.segmentRecord seg
  if s.items = [] then
    trimChain list length
    freeChunk seg
  else
    return ()

/-- Remove the reference at position `index`, and the last segment if that leaves
it empty. -/
def remove (list : Handle) (index : Nat) : HeapM Unit := do
  let (seg, offset) ← locate list index
  let r ← inspect fun h => h.segmentRecord seg
  if offset < r.items.length then
    modifySegment seg fun s => { s with items := s.items.eraseIdx offset }
    let h ← heap
    let last ← pullAlong (h.arena.slots.size + 1) seg
    modifyRecord list fun r => { r with length := r.length - 1, cursor := none }
    let length ← inspect fun h => h.segListLength list
    dropEmptyTail list last length
  else
    throw .brokenChain

/-- Release the segments of a chain. Each step releases a live chunk, so a chain
that leads back to itself ends at a chunk already released. -/
def releaseChain : (fuel : Nat) → Option Handle → HeapM Unit
  | _, none => return ()
  | 0, some _ => throw .dangling
  | fuel + 1, some seg => do
    let r ← inspect fun h => h.segmentRecord seg
    freeChunk seg
    releaseChain fuel r.next

/-- Remove everything and release all segments. -/
def clear (list : Handle) : HeapM Unit := do
  let r ← inspect fun h => h.segListRecord list
  modifyRecord list fun _ => {}
  let h ← heap
  releaseChain (h.arena.slots.size + 1) r.head

end SegList

end ChunkHeap

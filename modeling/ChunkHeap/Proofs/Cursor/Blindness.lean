import ChunkHeap.Proofs.Containers.Storage
import ChunkHeap.Proofs.Cursor.Erasure

/-!
# Operations that cannot see cursors

Two machines are alike when they differ in cursors only. `HeapM.Blind` says of an
operation that it cannot tell alike machines apart: its outcome is the same on
both, and it leaves alike machines. There is a rule for each way in which
operations are put together. Every operation on a segmented list is blind once
the cursor of that list can be trusted (`Heap.Trusted`), and only access by
position asks for that.
-/

namespace ChunkHeap
set_option autoImplicit false

open HeapM

namespace Machine

/-- The machine with every cursor erased. -/
def still (m : Machine) : Machine :=
  { m with heap := m.heap.still }

/-- The machines differ in cursors only. -/
def Alike (m m' : Machine) : Prop :=
  m.still = m'.still

variable {m m' : Machine}

theorem Alike.refl (m : Machine) : m.Alike m := rfl

theorem Alike.symm (alike : m.Alike m') : m'.Alike m :=
  Eq.symm alike

theorem alike_still (m : Machine) : m.Alike m.still := by
  simp [Alike, still]

theorem alike_iff : m.Alike m' ↔ m.heap.still = m'.heap.still ∧ m.log = m'.log := by
  simp only [Alike, still, mk.injEq]

/-- What cannot be told from the erasure is the same on alike machines. -/
theorem Alike.reading {α : Type} (alike : m.Alike m') {f : Heap → α} (same : ∀ h, f h.still = f h) :
    f m.heap = f m'.heap := by
  rw [← same, (alike_iff.1 alike).1, same]

theorem Alike.mapRoots (alike : m.Alike m') (g : RootSet → RootSet) : (m.mapRoots g).Alike (m'.mapRoots g) := by
  have moved : ∀ m : Machine, (m.mapRoots g).still = m.still.mapRoots g := fun _ => rfl
  rw [Alike, moved, moved, show m.still = m'.still from alike]

/-- Writing payloads that differ in a cursor at most. -/
theorem Alike.put (alike : m.Alike m') (x : Handle) {p q : Payload} (same : p.still = q.still) :
    (m.put x p).Alike (m'.put x q) := by
  have written : ∀ (m : Machine) (p : Payload), (m.put x p).still = m.still.put x p.still := fun m p => by
    simp only [Machine.put, still, Heap.setPayload, Heap.still, Arena.setPayload_still]
  rw [Alike, written, written, show m.still = m'.still from alike, same]

/-- The records of a list on alike machines. -/
theorem Alike.record (alike : m.Alike m') (x : Handle) :
    (∃ e, m.heap.segListRecord x = .error e ∧ m'.heap.segListRecord x = .error e) ∨
      ∃ r r', m.heap.segListRecord x = .ok r ∧ m'.heap.segListRecord x = .ok r' ∧ r.still = r'.still := by
  have same : (m.heap.segListRecord x).map SegListRecord.still = (m'.heap.segListRecord x).map SegListRecord.still := by
    rw [← Heap.segListRecord_still, ← Heap.segListRecord_still, (alike_iff.1 alike).1]
  cases left : m.heap.segListRecord x with
  | error e =>
    cases right : m'.heap.segListRecord x with
    | error e' =>
      rw [left, right] at same
      cases same
      exact .inl ⟨e, rfl, rfl⟩
    | ok r' =>
      rw [left, right] at same
      cases same
  | ok r =>
    cases right : m'.heap.segListRecord x with
    | error e' =>
      rw [left, right] at same
      cases same
    | ok r' =>
      rw [left, right] at same
      exact .inr ⟨r, r', rfl, rfl, Except.ok.inj same⟩

end Machine

/-! ### The judgement and its rules -/

namespace HeapM

open Machine

variable {α β : Type} {pre pre' : Heap → Prop} {op : HeapM α} {f : α → HeapM β}

/-- The two outcomes are the same, and the machines left are alike. -/
def Agree (left right : Except Error α × Machine) : Prop :=
  left.1 = right.1 ∧ left.2.Alike right.2

/-- The operation does the same on alike machines where `pre` holds. -/
def Blind (pre : Heap → Prop) (op : HeapM α) : Prop :=
  ∀ m m', m.Alike m' → pre m.heap → pre m'.heap → Agree (op.run m) (op.run m')

theorem Blind.mono (blind : Blind pre op) (before : ∀ h, pre' h → pre h) : Blind pre' op :=
  fun m m' alike holds holds' => blind m m' alike (before _ holds) (before _ holds')

/-- Erasing cursors before or after the operation comes to the same. -/
theorem blind_of_still (commutes : ∀ m, op.run m.still = ((op.run m).1, (op.run m).2.still)) : Blind pre op := by
  intro m m' alike _ _
  have same : ((op.run m).1, (op.run m).2.still) = ((op.run m').1, (op.run m').2.still) := by
    rw [← commutes, ← commutes, alike]
  exact Prod.ext_iff.1 same

theorem blind_pure (a : α) : Blind pre (pure a) :=
  fun _ _ alike _ _ => ⟨rfl, alike⟩

theorem blind_throw (e : Error) : Blind pre (throw e : HeapM α) :=
  fun _ _ alike _ _ => ⟨rfl, alike⟩

theorem blind_inspect {read : Heap → Except Error α} (same : ∀ h, read h.still = read h) : Blind pre (inspect read) :=
  fun _ _ alike _ _ => ⟨alike.reading same, alike⟩

/-- One operation after another; `post` is what the first leaves for the second. -/
theorem Blind.bind (first : Blind pre op) (post : α → Heap → Prop)
    (holds : ∀ m a m', pre m.heap → op.run m = (.ok a, m') → post a m'.heap)
    (next : ∀ a, Blind (post a) (f a)) : Blind pre (op >>= f) := by
  intro m m' alike left right
  obtain ⟨same, alike'⟩ := first m m' alike left right
  rcases ran : op.run m with ⟨e | a, n⟩
  · rcases ran' : op.run m' with ⟨e' | a', n'⟩
    · rw [ran, ran'] at same alike'
      cases same
      rw [run_bind_error ran, run_bind_error ran']
      exact ⟨rfl, alike'⟩
    · rw [ran, ran'] at same
      cases same
  · rcases ran' : op.run m' with ⟨e' | a', n'⟩
    · rw [ran, ran'] at same
      cases same
    · rw [ran, ran'] at same alike'
      cases same
      rw [run_bind_ok ran, run_bind_ok ran']
      exact next a n n' alike' (holds m a n left ran) (holds m' a n' right ran')

/-- The same where the second operation needs nothing. -/
theorem Blind.andThen (first : Blind pre op) (next : ∀ a, Blind (fun _ => True) (f a)) : Blind pre (op >>= f) :=
  first.bind (fun _ _ => True) (fun _ _ _ _ _ => trivial) next

theorem Blind.map (blind : Blind pre op) (g : α → β) : Blind pre (g <$> op) := by
  rw [map_eq_pure_bind]
  exact blind.andThen fun _ => blind_pure _

/-- A reading followed by what it is for. -/
theorem blind_reading {read : Heap → Except Error α} (same : ∀ h, read h.still = read h)
    (next : ∀ a, Blind (fun h => pre h ∧ read h = .ok a) (f a)) : Blind pre (inspect read >>= f) := by
  refine (blind_inspect same).bind _ (fun m a m' holds ran => ?_) next
  rw [run_inspect] at ran
  obtain ⟨done, rfl⟩ := Prod.ext_iff.1 ran
  exact ⟨holds, done⟩

/-- The heap taken for something that cannot be told from its erasure. -/
theorem blind_heap {k : Heap → HeapM α} (same : ∀ h, k h.still = k h) (next : ∀ h, Blind pre (k h)) :
    Blind pre (heap >>= k) := by
  intro m m' alike left right
  show Agree ((k m.heap).run m) ((k m'.heap).run m')
  rw [alike.reading same]
  exact next _ m m' alike left right

/-- An operation and a handler of its errors. -/
theorem Blind.recover {handler : Error → HeapM α} {failed : Heap → Prop} (first : Blind pre op)
    (holds : ∀ m e m', pre m.heap → op.run m = (.error e, m') → failed m'.heap)
    (next : ∀ e, Blind failed (handler e)) : Blind pre (recover op handler) := by
  intro m m' alike left right
  obtain ⟨same, alike'⟩ := first m m' alike left right
  rw [run_recover, run_recover]
  rcases ran : op.run m with ⟨e | a, n⟩
  · rcases ran' : op.run m' with ⟨e' | a', n'⟩
    · rw [ran, ran'] at same alike'
      cases same
      exact next e n n' alike' (holds m e n left ran) (holds m' e n' right ran')
    · rw [ran, ran'] at same
      cases same
  · rcases ran' : op.run m' with ⟨e' | a', n'⟩
    · rw [ran, ran'] at same
      cases same
    · rw [ran, ran'] at same alike'
      exact ⟨same, alike'⟩

/-! ### Primitives -/

theorem blind_modifyRoots (g : RootSet → RootSet) : Blind pre (modifyRoots g) :=
  fun _ _ alike _ _ => ⟨rfl, alike.mapRoots g⟩

/-- A construction does the same when its steps do. -/
theorem Blind.guarded {body : HeapM α} (blind : Blind pre body)
    (enter : ∀ h, pre' h → pre { h with roots := h.roots.enter }) : Blind pre' (guarded body) := by
  intro m m' alike left right
  obtain ⟨same, alike'⟩ := blind _ _ (alike.mapRoots RootSet.enter) (enter _ left) (enter _ right)
  have depth : m.heap.roots.inFlight.length = m'.heap.roots.inFlight.length :=
    alike.reading (f := fun h => h.roots.inFlight.length) fun _ => rfl
  rw [run_guarded, run_guarded, depth]
  exact ⟨same, alike'.mapRoots _⟩

theorem blind_collectWith (pins : List Handle) : Blind pre (collectWith pins) := by
  refine blind_of_still fun m => ?_
  simp only [collectWith, run, still, Heap.collectWith_still]

theorem blind_emit (e : Event) : Blind pre (emit e) :=
  blind_of_still fun _ => rfl

theorem blind_makeRoom (size : Nat) (pins : List Handle) : Blind pre (makeRoom size pins) := by
  refine blind_heap (fun _ => rfl) fun h => ?_
  split
  · exact (blind_collectWith pins).andThen fun _ => blind_pure ()
  · exact blind_pure ()

theorem blind_refuse (size : Nat) (e : Error) : Blind pre (refuse size e : HeapM α) :=
  blind_heap (fun _ => rfl) fun _ => (blind_emit _).andThen fun _ => blind_throw e

/-- An object without a cursor is entered alike. -/
theorem blind_install {p : Payload} (same : p.still = p) : Blind pre (install p) := by
  refine blind_of_still fun m => ?_
  have object : (Object.mk { tag := p.tag, chunkBytes := p.chunkBytes } p).still =
      { header := { tag := p.tag, chunkBytes := p.chunkBytes }, payload := p } := by rw [Object.still, same]
  simp only [install, run, still, Heap.still, Arena.insert_still _ object]

theorem blind_allocatePinned {p : Payload} (same : p.still = p) (pins : List Handle) : Blind pre (allocatePinned p pins) := by
  refine blind_heap (fun _ => rfl) fun h => ?_
  split
  · exact blind_refuse _ _
  · refine (blind_makeRoom _ _).andThen fun _ => blind_heap (fun _ => rfl) fun g => ?_
    split
    · exact blind_install same
    · exact blind_refuse _ _

theorem blind_freeChunk (x : Handle) : Blind pre (freeChunk x) := by
  refine blind_of_still fun m => ?_
  simp only [freeChunk, run, still, Heap.still, Arena.remove_still]
  cases m.heap.arena.remove x <;> rfl

end HeapM

/-! ### Segmented lists -/

/-- The cursor of a list, if it is set, names the segment at its number. -/
def Heap.Trusted (h : Heap) (list : Handle) : Prop :=
  ∀ r n seg, h.find? list = some (.seglist r) → r.cursor = some (n, seg) → h.seekFromHead r n = .ok seg

namespace Heap

variable {h : Heap} {list : Handle} {r : SegListRecord}

theorem walk_add (h : Heap) {n : Nat} {seg other : Handle} (there : h.walk n seg = .ok other) (k : Nat) :
    h.walk (n + k) seg = h.walk k other := by
  induction n generalizing seg with
  | zero =>
    cases there
    rw [Nat.zero_add]
  | succ n ih =>
    rw [Nat.succ_add, walk]
    rw [walk] at there
    cases read : h.segmentRecord seg with
    | error e => rw [read] at there; cases there
    | ok s =>
      rw [read] at there
      cases link : s.next with
      | none => simp only [bind, Except.bind, link] at there; cases there
      | some next =>
        simp only [bind, Except.bind, link] at there ⊢
        exact ih there

/-- Seeking from a cursor that can be trusted is seeking from the head. -/
theorem Trusted.seek_eq (trusted : h.Trusted list) (found : h.find? list = some (.seglist r)) (target : Nat) :
    h.seek r target = h.seekFromHead r target := by
  unfold seek
  cases cursor : r.cursor with
  | none => rfl
  | some place =>
    obtain ⟨n, seg⟩ := place
    have there := trusted r n seg found cursor
    show (if n ≤ target then _ else _) = _
    split
    · rename_i before
      unfold seekFromHead at there ⊢
      cases head : r.head with
      | none => rw [head] at there; cases there
      | some first =>
        rw [head] at there
        show _ = h.walk target first
        rw [← h.walk_add there, Nat.add_sub_cancel' before]
    · rfl

theorem Chained.trusted {c : Chain} (chained : h.Chained r c) (found : h.find? list = some (.seglist r)) : h.Trusted list := by
  intro r' n seg found' cursor
  rw [found] at found'
  cases found'
  obtain ⟨⟨_, items⟩, here, rfl⟩ := Option.map_eq_some_iff.1 (chained.cursor n seg cursor)
  cases c with
  | nil => cases here
  | cons first rest =>
    rw [seekFromHead, chained.head]
    have walked := walk_eq (k := n) chained.linked (n := 0) rfl (by rwa [Nat.zero_add])
    exact walked

end Heap

namespace SegList

open Heap

variable {α : Type} {pre : Heap → Prop}

/-- A record read for anything but its cursor. -/
theorem blind_record (list : Handle) {f : SegListRecord → HeapM α} (same : ∀ r, f r.still = f r)
    (next : ∀ r, Blind pre (f r)) : Blind pre ((inspect fun h => h.segListRecord list) >>= f) := by
  intro m m' alike left right
  rcases alike.record list with ⟨e, read, read'⟩ | ⟨r, r', read, read', records⟩
  · rw [run_bind_error (by rw [run_inspect, read]), run_bind_error (by rw [run_inspect, read'])]
    exact ⟨rfl, alike⟩
  · rw [run_bind_ok (by rw [run_inspect, read]), run_bind_ok (by rw [run_inspect, read']), ← same r, ← same r', records]
    exact next _ m m' alike left right

theorem blind_modifyRecord (list : Handle) {f : SegListRecord → SegListRecord} (same : ∀ r, (f r.still).still = (f r).still) :
    Blind pre (modifyRecord list f) := by
  intro m m' alike _ _
  rcases alike.record list with ⟨e, read, read'⟩ | ⟨r, r', read, read', records⟩
  · rw [modifyRecord, run_bind_error (by rw [run_inspect, read]), run_bind_error (by rw [run_inspect, read'])]
    exact ⟨rfl, alike⟩
  · rw [run_modifyRecord f (segListRecord_eq_ok_iff.1 read), run_modifyRecord f (segListRecord_eq_ok_iff.1 read')]
    refine ⟨rfl, alike.put list ?_⟩
    show Payload.seglist (f r).still = Payload.seglist (f r').still
    rw [← same, records, same]

theorem blind_modifySegment (seg : Handle) (f : SegmentRecord → SegmentRecord) : Blind pre (modifySegment seg f) :=
  blind_reading (fun h => h.segmentRecord_still seg) fun _ _ _ alike _ _ => ⟨rfl, alike.put seg rfl⟩

/-- Access by position, with a cursor that can be trusted, as if there were none. -/
theorem run_locate {m : Machine} {list : Handle} {r : SegListRecord} (trusted : m.heap.Trusted list)
    (found : m.heap.find? list = some (.seglist r)) (index : Nat) :
    (locate list index).run m =
      if index < r.length then
        match m.heap.seekFromHead r (index / segmentCapacity) with
        | .ok seg => (.ok (seg, index % segmentCapacity),
            m.put list (.seglist { r with cursor := some (index / segmentCapacity, seg) }))
        | .error e => (.error e, m)
      else (.error .segListRange, m) := by
  have sought := trusted.seek_eq found (index / segmentCapacity)
  rw [locate, run_bind_ok (by rw [run_inspect, segListRecord_ok found])]
  split
  · cases there : m.heap.seekFromHead r (index / segmentCapacity) with
    | error e => exact run_bind_error (by rw [run_inspect, sought, there])
    | ok seg =>
      refine (run_bind_ok (a := seg) (by rw [run_inspect, sought, there])).trans ?_
      rfl
  · rfl

/-- The one access that looks at a cursor. -/
theorem blind_locate (list : Handle) (index : Nat) : Blind (fun h => h.Trusted list) (locate list index) := by
  intro m m' alike trusted trusted'
  rcases alike.record list with ⟨e, read, read'⟩ | ⟨r, r', read, read', records⟩
  · rw [locate, run_bind_error (by rw [run_inspect, read]), run_bind_error (by rw [run_inspect, read'])]
    exact ⟨rfl, alike⟩
  · rw [run_locate trusted (segListRecord_eq_ok_iff.1 read), run_locate trusted' (segListRecord_eq_ok_iff.1 read')]
    have length : r.length = r'.length := by
      show r.still.length = r'.still.length
      rw [records]
    have sought : m.heap.seekFromHead r (index / segmentCapacity) = m'.heap.seekFromHead r' (index / segmentCapacity) := by
      show m.heap.seekFromHead r.still _ = m'.heap.seekFromHead r'.still _
      rw [records]
      exact alike.reading (f := fun h => h.seekFromHead r'.still (index / segmentCapacity)) fun h => h.seekFromHead_still _ _
    by_cases inside : index < r'.length
    · rw [if_pos (length ▸ inside), if_pos inside, sought]
      cases m'.heap.seekFromHead r' (index / segmentCapacity) with
      | error e => exact ⟨rfl, alike⟩
      | ok seg => exact ⟨rfl, alike.put list (congrArg Payload.seglist records)⟩
    · rw [if_neg (length ▸ inside), if_neg inside]
      exact ⟨rfl, alike⟩

/-! ### The operations on a segmented list -/

theorem blind_get (list : Handle) (index : Nat) : Blind (fun h => h.Trusted list) (get list index) := by
  refine (blind_locate list index).andThen fun place => ?_
  refine blind_reading (fun h => h.segmentRecord_still _) fun r => ?_
  split
  · exact blind_pure _
  · exact blind_throw _

theorem blind_set (list : Handle) (index : Nat) (x : Handle) : Blind (fun h => h.Trusted list) (set list index x) := by
  refine (blind_locate list index).andThen fun place => ?_
  refine blind_reading (fun h => h.segmentRecord_still _) fun r => ?_
  split
  · exact blind_modifySegment _ _
  · exact blind_throw _

theorem blind_placeLast (list : Handle) (r : SegListRecord) (x : Handle) : Blind pre (placeLast list r x) := by
  unfold placeLast
  split
  · exact (blind_allocatePinned rfl []).andThen fun _ => blind_modifyRecord list fun _ => rfl
  · split
    · refine (blind_allocatePinned rfl []).andThen fun _ => ?_
      exact (blind_modifySegment _ _).andThen fun _ => blind_modifyRecord list fun _ => rfl
    · exact blind_modifySegment _ _

/-- Appending goes by the tail and the length. -/
theorem blind_append (list x : Handle) : Blind pre (append list x) :=
  blind_record list (fun _ => rfl) fun r => (blind_placeLast list r x).andThen fun _ => blind_modifyRecord list fun _ => rfl

theorem blind_pushAlong (list : Handle) (fuel : Nat) (spare : Option Handle) (seg : Handle) (offset : Nat) (carry : Handle) :
    Blind pre (pushAlong list fuel spare seg offset carry) := by
  induction fuel generalizing pre spare seg offset carry with
  | zero => exact blind_throw _
  | succ fuel ih =>
    refine blind_reading (fun h => h.segmentRecord_still _) fun r => ?_
    split
    · exact blind_modifySegment _ _
    · split
      · exact blind_throw _
      · refine (blind_modifySegment _ _).andThen fun _ => ?_
        split
        · exact ih _ _ _ _
        · refine (blind_modifySegment _ _).andThen fun _ => ?_
          exact (blind_modifyRecord list fun _ => rfl).andThen fun _ => ih _ _ _ _
        · exact blind_throw _

theorem blind_spareFor (length : Nat) (x : Handle) : Blind pre (spareFor length x) := by
  unfold spareFor
  split
  · exact (blind_allocatePinned rfl [x]).map _
  · exact blind_pure _

theorem blind_pullAlong (fuel : Nat) (seg : Handle) : Blind pre (pullAlong fuel seg) := by
  induction fuel generalizing pre seg with
  | zero => exact blind_throw _
  | succ fuel ih =>
    refine blind_reading (fun h => h.segmentRecord_still _) fun r => ?_
    split
    · exact blind_pure _
    · refine blind_reading (fun h => h.segmentRecord_still _) fun s => ?_
      split
      · exact blind_throw _
      · exact (blind_modifySegment _ _).andThen fun _ => (blind_modifySegment _ _).andThen fun _ => ih _

theorem blind_releaseChain (fuel : Nat) (seg : Option Handle) : Blind pre (releaseChain fuel seg) := by
  induction fuel generalizing pre seg with
  | zero =>
    cases seg with
    | none => exact blind_pure _
    | some _ => exact blind_throw _
  | succ fuel ih =>
    cases seg with
    | none => exact blind_pure _
    | some seg =>
      exact blind_reading (fun h => h.segmentRecord_still _) fun r => (blind_freeChunk seg).andThen fun _ => ih _

/-- Clearing goes by the head. -/
theorem blind_clear (list : Handle) : Blind pre (clear list) := by
  refine blind_record list (fun _ => rfl) fun r => (blind_modifyRecord list fun _ => rfl).andThen fun _ => ?_
  exact blind_heap (fun h => by rw [h.size_still]) fun _ => blind_releaseChain _ _

/-- A cursor that has been erased can be trusted. -/
theorem trusted_modifyRecord {m m' : Machine} {list : Handle} {f : SegListRecord → SegListRecord} {a : Unit}
    (erases : ∀ r, (f r).cursor = none) (ran : (modifyRecord list f).run m = (.ok a, m')) : m'.heap.Trusted list := by
  cases read : m.heap.segListRecord list with
  | error e =>
    rw [modifyRecord, run_bind_error (by rw [run_inspect, read])] at ran
    cases ran
  | ok r =>
    have found := segListRecord_eq_ok_iff.1 read
    rw [run_modifyRecord f found] at ran
    cases ran
    intro r' n seg found' cursor
    rw [Machine.put_heap, find?_setPayload_self found] at found'
    cases found'
    rw [erases] at cursor
    cases cursor

theorem blind_trimChain (list : Handle) (length : Nat) : Blind (fun h => h.Trusted list) (trimChain list length) := by
  unfold trimChain
  split
  · exact blind_modifyRecord list fun _ => rfl
  · refine (blind_locate list _).andThen fun place => (blind_modifySegment _ _).andThen fun _ => ?_
    exact blind_modifyRecord list fun _ => rfl

theorem blind_dropEmptyTail (list seg : Handle) (length : Nat) :
    Blind (fun h => h.Trusted list) (dropEmptyTail list seg length) := by
  refine blind_reading (fun h => h.segmentRecord_still _) fun s => ?_
  split
  · exact ((blind_trimChain list length).mono fun _ facts => facts.1).andThen fun _ => blind_freeChunk seg
  · exact blind_pure ()

/-- Removing erases the cursor before it looks for the new tail. -/
theorem blind_remove (list : Handle) (index : Nat) : Blind (fun h => h.Trusted list) (remove list index) := by
  refine (blind_locate list index).andThen fun place => ?_
  refine blind_reading (fun h => h.segmentRecord_still _) fun r => ?_
  split
  · refine (blind_modifySegment _ _).andThen fun _ => blind_heap (fun h => by rw [h.size_still]) fun h => ?_
    refine (blind_pullAlong _ _).andThen fun last => ?_
    refine (blind_modifyRecord list fun _ => rfl).bind (fun _ h => h.Trusted list)
      (fun _ _ _ _ ran => trusted_modifyRecord (fun _ => rfl) ran) fun _ => ?_
    refine blind_reading (fun h => h.segListLength_still _) fun length => ?_
    exact (blind_dropEmptyTail list last length).mono fun _ facts => facts.1
  · exact blind_throw _

/-- Inserting may collect before it looks for the place, which the list survives
with its chain if the roots lead to it. -/
theorem blind_insert (list x : Handle) (index : Nat) :
    Blind (fun h => h.Shaped ∧ h.Rooted list) (insert list x index) := by
  refine blind_reading (fun h => h.segListLength_still list) fun length => ?_
  split
  · exact blind_throw _
  · split
    · exact blind_append list x
    · refine (blind_spareFor length x).bind (fun _ h => h.Trusted list) ?_ fun spare => ?_
      · rintro m spare m' ⟨⟨shaped, rooted⟩, read⟩ ran
        cases record : m.heap.segListRecord list with
        | error e =>
          rw [segListLength, record] at read
          cases read
        | ok r =>
          have found := segListRecord_eq_ok_iff.1 record
          rw [segListLength_ok found] at read
          cases read
          obtain ⟨c, chained⟩ := shaped.chains list r found
          obtain ⟨g, -, ⟨e, m'', failed, -⟩ | ⟨spare', m'', done, -, found', chained', -⟩⟩ :=
            spareFor_spec x found chained shaped.accounted (rooted.collected _)
          · rw [failed] at ran
            cases ran
          · rw [done] at ran
            cases ran
            exact chained'.trusted found'
      · refine (blind_locate list index).andThen fun place => ?_
        refine blind_heap (fun h => by rw [h.size_still]) fun h => (blind_pushAlong _ _ _ _ _ _).andThen fun _ => ?_
        exact blind_modifyRecord list fun _ => rfl

end SegList

end ChunkHeap

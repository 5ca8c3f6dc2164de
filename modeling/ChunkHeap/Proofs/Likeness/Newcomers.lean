import ChunkHeap.Proofs.Steps

/-!
# New objects

Which objects are new after an operation can be read off the log: a slot is on record
when it is given to an object (`Machine.Born`). An allocation gives out one slot and no
other (`HeapM.born_allocatePinned`). Accesses and updates of containers make no objects but
segments (`HeapM.IsSegmental`): whatever else there is afterwards is as old as before.
-/

namespace ChunkHeap
set_option autoImplicit false

open HeapM Heap

namespace Machine

variable {m m' m'' : Machine} {x : Handle}

theorem not_born_of_log (same : m'.log = m.log) : ¬ Born m m' x := by
  rintro ⟨tag, size, event⟩
  have none : m.log.toList.drop m.log.size = [] := List.drop_of_length_le (Nat.le_refl _)
  rw [same, none] at event
  cases event

/-- What is new after two stretches is new after one of them. -/
theorem Born.split (first : m.log.toList <+: m'.log.toList) (second : m'.log.toList <+: m''.log.toList)
    (born : Born m m'' x) : Born m m' x ∨ Born m' m'' x := by
  obtain ⟨tag, size, event⟩ := born
  obtain ⟨before, same⟩ := first
  obtain ⟨after, same'⟩ := second
  have count : m.log.size = m.log.toList.length := rfl
  have count' : m'.log.size = m'.log.toList.length := rfl
  rw [← same', ← same, List.append_assoc, count, List.drop_left, List.mem_append] at event
  refine event.imp (fun here => ⟨tag, size, ?_⟩) fun there => ⟨tag, size, ?_⟩
  · rwa [← same, count, List.drop_left]
  · rwa [← same', count', List.drop_left]

/-- From `m` to `m'` nothing but segments is new. -/
structure Segmental (m m' : Machine) : Prop where
  reported : m.log.toList <+: m'.log.toList
  accounted : m.heap.Accounted → m'.heap.Accounted
  old : m.heap.Accounted → ∀ x q, m'.heap.find? x = some q → q.tag ≠ .segment →
    ¬ m.Born m' x ∧ ∃ p, m.heap.find? x = some p ∧ p.tag = q.tag

namespace Segmental

theorem refl (m : Machine) : m.Segmental m :=
  ⟨List.prefix_rfl, id, fun _ _ q found _ => ⟨not_born_of_log rfl, q, found, rfl⟩⟩

theorem trans (first : m.Segmental m') (second : m'.Segmental m'') : m.Segmental m'' := by
  refine ⟨first.reported.trans second.reported, fun ok => second.accounted (first.accounted ok), fun ok x q found other => ?_⟩
  obtain ⟨unborn, p, found', tag⟩ := second.old (first.accounted ok) x q found other
  obtain ⟨unborn', p', found'', tag'⟩ := first.old ok x p found' (tag ▸ other)
  refine ⟨fun born => ?_, p', found'', tag'.trans tag⟩
  exact (born.split first.reported second.reported).elim unborn' unborn

/-- Nothing is new, and what is there was there. -/
theorem of_subset (reported : m.log.toList <+: m'.log.toList) (accounted : m.heap.Accounted → m'.heap.Accounted)
    (unborn : ∀ x, ¬ m.Born m' x)
    (old : m.heap.Accounted → ∀ x q, m'.heap.find? x = some q → ∃ p, m.heap.find? x = some p ∧ p.tag = q.tag) : m.Segmental m' :=
  ⟨reported, accounted, fun ok x q found _ => ⟨unborn x, old ok x q found⟩⟩

theorem element (segmental : m.Segmental m') (ok : m.heap.Accounted) (element : m'.heap.Element x) : ¬ m.Born m' x := by
  obtain ⟨q, found, other⟩ := element
  exact (segmental.old ok x q found other).1

end Segmental

/-- Writing in place makes nothing. -/
theorem segmental_put {p q : Payload} (found : m.heap.find? x = some p) (tag : q.tag = p.tag) : m.Segmental (m.put x q) := by
  refine .of_subset List.prefix_rfl (fun ok => ok.setPayload x q) (fun _ => not_born_of_log rfl) fun _ y q' there => ?_
  rw [put_heap, find?_setPayload] at there
  split at there
  · rename_i same
    subst same
    rw [found] at there
    cases there
    exact ⟨p, found, tag.symm⟩
  · exact ⟨q', there, rfl⟩

end Machine

/-! ### Allocations -/

namespace HeapM

variable {α β : Type} {m m' : Machine} {x y : Handle} {p : Payload} {pins : List Handle}

/-- Making room puts no slot on record. -/
theorem makeRoom_unborn (size : Nat) (pins : List Handle) (m : Machine) (x : Handle) :
    ¬ m.Born ((makeRoom size pins).run m).2 x := by
  rw [makeRoom, run_bind_ok (run_heap m)]
  split
  · rintro ⟨tag, bytes, event⟩
    have collected : (collectWith pins >>= fun _ => pure () : HeapM Unit).run m =
      (.ok (), { heap := (m.heap.collectWith pins).heap, log := m.log ++ (m.heap.collectWith pins).events.toArray }) := rfl
    rw [collected] at event
    have count : m.log.size = m.log.toList.length := rfl
    rw [Array.toList_append, count, List.drop_left, Heap.collectWith] at event
    split at event
    · simp at event
    · simp at event
  · exact Machine.not_born_of_log rfl

/-- An allocation puts the slot of the new object on record, and no other. -/
theorem born_allocatePinned (made : (allocatePinned p pins).run m = (.ok x, m')) : m.Born m' y ↔ y = x := by
  rw [allocatePinned, run_bind_ok (run_heap m)] at made
  split at made
  · cases made
  · have takes : Takes Machine.NoCalls false false (makeRoom p.chunkBytes (pins ++ p.children)) := takes_makeRoom _ _
    have earlier := (takes m).reported
    have unborn := makeRoom_unborn p.chunkBytes (pins ++ p.children) m y
    rcases room : (makeRoom p.chunkBytes (pins ++ p.children)).run m with ⟨e | _, m₁⟩
    · rw [run_bind_error room] at made
      cases made
    · rw [room] at earlier unborn
      rw [run_bind_ok room, installFitting, run_bind_ok (run_heap m₁)] at made
      split at made
      · cases made
        constructor
        · intro born
          obtain ⟨tag, size, event⟩ := (born.split earlier (by simp)).resolve_left unborn
          simp only [Array.toList_push, Array.size_eq_length_toList, List.drop_left, List.mem_singleton, Event.allocated.injEq] at event
          cases y
          exact congrArg Handle.mk event.2.1
        · rintro rfl
          refine Machine.Born.trans_right earlier ⟨p.tag, p.chunkBytes, ?_⟩
          simp
      · cases made

/-- A failed allocation puts no slot on record. -/
theorem unborn_allocatePinned {e : Error} (failed : (allocatePinned p pins).run m = (.error e, m')) : ¬ m.Born m' y := by
  have refused : ∀ (m₁ : Machine) (size : Nat) (e : Error), ¬ m₁.Born ((refuse size e : HeapM Handle).run m₁).2 y := by
    rintro m₁ size e ⟨tag, bytes, event⟩
    have ran : (refuse size e : HeapM Handle).run m₁ =
      (.error e, { m₁ with log := m₁.log.push (.outOfMemory size m₁.heap.bytesFree) }) := rfl
    rw [ran] at event
    simp at event
  rw [allocatePinned, run_bind_ok (run_heap m)] at failed
  split at failed
  · have := refused m p.chunkBytes .oversized
    rwa [failed] at this
  · have takes : Takes Machine.NoCalls false false (makeRoom p.chunkBytes (pins ++ p.children)) := takes_makeRoom _ _
    have earlier := (takes m).reported
    have unborn := makeRoom_unborn p.chunkBytes (pins ++ p.children) m y
    rcases room : (makeRoom p.chunkBytes (pins ++ p.children)).run m with ⟨e' | _, m₁⟩
    · rw [run_bind_error room] at failed
      cases failed
      rwa [room] at unborn
    · rw [room] at earlier unborn
      rw [run_bind_ok room, installFitting, run_bind_ok (run_heap m₁)] at failed
      split at failed
      · cases failed
      · have later := refused m₁ p.chunkBytes .exhausted
        have takes' : Takes Machine.NoCalls false false (refuse p.chunkBytes .exhausted : HeapM Handle) := takes_refuse _ _
        have reported := (takes' m₁).reported
        rw [failed] at later reported
        exact fun born => (born.split earlier reported).elim unborn later

/-! ### Operations that make nothing but segments -/

/-- The operation makes no objects but segments, from every machine and with every outcome. -/
def IsSegmental (op : HeapM α) : Prop :=
  ∀ m, Machine.Segmental m (op.run m).2

theorem isSegmental_pure (a : α) : IsSegmental (pure a : HeapM α) :=
  fun m => .refl m

theorem isSegmental_throw (e : Error) : IsSegmental (throw e : HeapM α) :=
  fun m => .refl m

theorem isSegmental_inspect (f : Heap → Except Error α) : IsSegmental (inspect f) :=
  fun m => .refl m

theorem isSegmental_heap : IsSegmental heap :=
  fun m => .refl m

theorem isSegmental_protect (x : Handle) : IsSegmental (protect x) :=
  fun _ => .of_subset List.prefix_rfl (fun ok => ⟨ok.arena, ok.bytes⟩) (fun _ => Machine.not_born_of_log rfl)
    fun _ _ q found => ⟨q, found, rfl⟩

theorem IsSegmental.bind {op : HeapM α} {f : α → HeapM β} (first : IsSegmental op) (second : ∀ a, IsSegmental (f a)) :
    IsSegmental (op >>= f) := by
  intro m
  have before := first m
  rw [run_bind]
  rcases ran : op.run m with ⟨e | a, m'⟩
  · rw [ran] at before
    exact before
  · rw [ran] at before
    exact before.trans (second a m')

theorem IsSegmental.recover {op : HeapM α} {handler : Error → HeapM α} (first : IsSegmental op)
    (second : ∀ e, IsSegmental (handler e)) : IsSegmental (recover op handler) := by
  intro m
  have before := first m
  rw [run_recover]
  rcases ran : op.run m with ⟨e | a, m'⟩
  · rw [ran] at before
    exact before.trans (second e m')
  · rw [ran] at before
    exact before

/-- The roots do not matter. -/
theorem IsSegmental.guarded {body : HeapM α} (inner : IsSegmental body) : IsSegmental (guarded body) := by
  intro m
  rw [run_guarded]
  have within := inner (m.mapRoots RootSet.enter)
  refine ⟨within.reported, fun ok => ?_, fun ok => within.old ⟨ok.arena, ok.bytes⟩⟩
  have ok' := within.accounted ⟨ok.arena, ok.bytes⟩
  exact ⟨ok'.arena, ok'.bytes⟩

/-- A new segment. -/
theorem isSegmental_allocatePinned (r : SegmentRecord) (pins : List Handle) : IsSegmental (allocatePinned (.segment r) pins) := by
  intro m
  have takes : Takes Machine.NoCalls false false (allocatePinned (.segment r) pins) :=
    takes_allocatePinned _ _ fun _ => rfl
  have reported := (takes m).reported
  refine ⟨reported, fun ok => ?_, fun ok x q found other => ?_⟩
  all_goals
    obtain ⟨g, swept, ⟨e, m', failed, -, heap, -⟩ | ⟨y, m', made, entered⟩⟩ := allocatePinned_spec (.segment r) pins ok
  · rw [failed, heap]
    exact (swept.upkeep ok).accounted ok
  · rw [made]
    exact entered.accounted ((swept.upkeep ok).accounted ok)
  · rw [failed, heap] at found
    rw [failed]
    exact ⟨unborn_allocatePinned failed, q, swept.of_find? ok found, rfl⟩
  · rw [made] at found
    rw [made]
    have different : x ≠ y := by
      rintro rfl
      rw [entered.here] at found
      cases found
      exact other rfl
    rw [entered.other different] at found
    exact ⟨fun born => different ((born_allocatePinned made).1 born), q, swept.of_find? ok found, rfl⟩

theorem isSegmental_freeChunk (x : Handle) : IsSegmental (freeChunk x) := by
  intro m
  cases removed : m.heap.arena.remove x with
  | none =>
    simp only [run, freeChunk, removed]
    exact .refl m
  | some e =>
    simp only [run, freeChunk, removed]
    refine .of_subset (by simp) (fun ok => ok.release removed) ?_ fun _ y q found => ⟨q, ?_, rfl⟩
    · rintro y ⟨tag, size, event⟩
      simp at event
    · rw [find?_release removed] at found
      split at found
      · cases found
      · exact found

/-- Writing in place. -/
theorem isSegmental_rewrite {ρ : Type} {x : Handle} {read : Heap → Except Error ρ} {write : ρ → Payload}
    (known : ∀ h r, read h = .ok r → ∃ p, h.find? x = some p ∧ (write r).tag = p.tag) :
    IsSegmental (do
      let r ← inspect read
      modify fun h => h.setPayload x (write r)) := by
  intro m
  cases reading : read m.heap with
  | error e =>
    rw [run_bind, run_inspect, reading]
    exact .refl m
  | ok r =>
    obtain ⟨p, found, tag⟩ := known m.heap r reading
    rw [run_bind, run_inspect, reading]
    exact Machine.segmental_put found tag

end HeapM

/-! ### Accesses and updates of containers -/

namespace SegList

theorem isSegmental_modifyRecord (list : Handle) (f : SegListRecord → SegListRecord) : IsSegmental (modifyRecord list f) :=
  isSegmental_rewrite fun _ _ read => ⟨_, segListRecord_eq_ok_iff.1 read, rfl⟩

theorem isSegmental_modifySegment (seg : Handle) (f : SegmentRecord → SegmentRecord) : IsSegmental (modifySegment seg f) :=
  isSegmental_rewrite fun _ _ read => ⟨_, segmentRecord_eq_ok_iff.1 read, rfl⟩

theorem isSegmental_locate (list : Handle) (index : Nat) : IsSegmental (locate list index) := by
  intro m
  rcases locate_moves list index m with same | ⟨r, cursor, found, moved⟩
  · rw [same]
    exact .refl m
  · rw [moved]
    exact Machine.segmental_put found rfl

theorem isSegmental_get (list : Handle) (index : Nat) : IsSegmental (get list index) := by
  refine (isSegmental_locate list index).bind fun _ => (isSegmental_inspect _).bind fun r => ?_
  split
  · exact isSegmental_pure _
  · exact isSegmental_throw _

theorem isSegmental_placeLast (list : Handle) (r : SegListRecord) (x : Handle) : IsSegmental (placeLast list r x) := by
  have grow : IsSegmental (allocate (.segment { items := [x] })) := isSegmental_allocatePinned _ _
  unfold placeLast
  split
  · exact grow.bind fun _ => isSegmental_modifyRecord _ _
  · split
    · exact grow.bind fun _ => (isSegmental_modifySegment _ _).bind fun _ => isSegmental_modifyRecord _ _
    · exact isSegmental_modifySegment _ _

theorem isSegmental_append (list x : Handle) : IsSegmental (append list x) :=
  (isSegmental_inspect _).bind fun r => (isSegmental_placeLast list r x).bind fun _ => isSegmental_modifyRecord _ _

theorem isSegmental_pushAlong (list : Handle) (fuel : Nat) (spare : Option Handle) (seg : Handle) (offset : Nat)
    (carry : Handle) : IsSegmental (pushAlong list fuel spare seg offset carry) := by
  induction fuel generalizing spare seg offset carry with
  | zero => exact isSegmental_throw _
  | succ fuel ih =>
    refine (isSegmental_inspect _).bind fun r => ?_
    split
    · exact isSegmental_modifySegment _ _
    · split
      · exact isSegmental_throw _
      · refine (isSegmental_modifySegment _ _).bind fun _ => ?_
        split
        · exact ih _ _ _ _
        · exact (isSegmental_modifySegment _ _).bind fun _ => (isSegmental_modifyRecord _ _).bind fun _ => ih _ _ _ _
        · exact isSegmental_throw _

theorem isSegmental_spareFor (length : Nat) (x : Handle) : IsSegmental (spareFor length x) := by
  unfold spareFor
  split
  · rw [map_eq_pure_bind]
    exact (isSegmental_allocatePinned _ _).bind fun _ => isSegmental_pure _
  · exact isSegmental_pure _

theorem isSegmental_insert (list x : Handle) (index : Nat) : IsSegmental (insert list x index) := by
  refine (isSegmental_inspect _).bind fun length => ?_
  split
  · exact isSegmental_throw _
  · split
    · exact isSegmental_append list x
    · refine (isSegmental_spareFor length x).bind fun spare => (isSegmental_locate list index).bind fun _ => ?_
      exact isSegmental_heap.bind fun _ => (isSegmental_pushAlong _ _ _ _ _ _).bind fun _ => isSegmental_modifyRecord _ _

theorem isSegmental_set (list : Handle) (index : Nat) (x : Handle) : IsSegmental (set list index x) := by
  refine (isSegmental_locate list index).bind fun _ => (isSegmental_inspect _).bind fun r => ?_
  split
  · exact isSegmental_modifySegment _ _
  · exact isSegmental_throw _

theorem isSegmental_pullAlong (fuel : Nat) (seg : Handle) : IsSegmental (pullAlong fuel seg) := by
  induction fuel generalizing seg with
  | zero => exact isSegmental_throw _
  | succ fuel ih =>
    refine (isSegmental_inspect _).bind fun r => ?_
    split
    · exact isSegmental_pure _
    · refine (isSegmental_inspect _).bind fun s => ?_
      split
      · exact isSegmental_throw _
      · exact (isSegmental_modifySegment _ _).bind fun _ => (isSegmental_modifySegment _ _).bind fun _ => ih _

theorem isSegmental_trimChain (list : Handle) (length : Nat) : IsSegmental (trimChain list length) := by
  unfold trimChain
  split
  · exact isSegmental_modifyRecord _ _
  · exact (isSegmental_locate _ _).bind fun _ => (isSegmental_modifySegment _ _).bind fun _ => isSegmental_modifyRecord _ _

theorem isSegmental_dropEmptyTail (list seg : Handle) (length : Nat) : IsSegmental (dropEmptyTail list seg length) := by
  refine (isSegmental_inspect _).bind fun s => ?_
  split
  · exact (isSegmental_trimChain _ _).bind fun _ => isSegmental_freeChunk _
  · exact isSegmental_pure _

theorem isSegmental_remove (list : Handle) (index : Nat) : IsSegmental (remove list index) := by
  refine (isSegmental_locate list index).bind fun _ => (isSegmental_inspect _).bind fun r => ?_
  split
  · refine (isSegmental_modifySegment _ _).bind fun _ => isSegmental_heap.bind fun _ => (isSegmental_pullAlong _ _).bind fun _ => ?_
    exact (isSegmental_modifyRecord _ _).bind fun _ => (isSegmental_inspect _).bind fun _ => isSegmental_dropEmptyTail _ _ _
  · exact isSegmental_throw _

theorem isSegmental_releaseChain (fuel : Nat) (seg : Option Handle) : IsSegmental (releaseChain fuel seg) := by
  induction fuel generalizing seg with
  | zero =>
    cases seg with
    | none => exact isSegmental_pure _
    | some seg => exact isSegmental_throw _
  | succ fuel ih =>
    cases seg with
    | none => exact isSegmental_pure _
    | some seg => exact (isSegmental_inspect _).bind fun _ => (isSegmental_freeChunk _).bind fun _ => ih _

theorem isSegmental_clear (list : Handle) : IsSegmental (clear list) :=
  (isSegmental_inspect _).bind fun _ => (isSegmental_modifyRecord _ _).bind fun _ => isSegmental_heap.bind fun _ =>
    isSegmental_releaseChain _ _

end SegList

namespace ListObject

theorem isSegmental_modifyRecord (list : Handle) (f : ListRecord → ListRecord) : IsSegmental (modifyRecord list f) :=
  isSegmental_rewrite fun _ _ read => ⟨_, listRecord_eq_ok_iff.1 read, rfl⟩

theorem isSegmental_position (r : ListRecord) (index : Int) : IsSegmental (position r index) := by
  unfold position
  split
  · exact isSegmental_pure _
  · exact isSegmental_throw _

theorem isSegmental_get (list : Handle) (index : Int) : IsSegmental (get list index) :=
  (isSegmental_inspect _).bind fun _ => (isSegmental_position _ _).bind fun _ => SegList.isSegmental_get _ _

theorem isSegmental_set (list : Handle) (index : Int) (x : Handle) : IsSegmental (set list index x) :=
  (isSegmental_inspect _).bind fun _ => (isSegmental_position _ _).bind fun _ => SegList.isSegmental_set _ _ _

theorem isSegmental_append (list x : Handle) : IsSegmental (append list x) :=
  (isSegmental_inspect _).bind fun _ => (SegList.isSegmental_append _ _).bind fun _ => isSegmental_modifyRecord _ _

theorem isSegmental_insert (list : Handle) (index : Int) (x : Handle) : IsSegmental (insert list index x) :=
  (isSegmental_inspect _).bind fun _ => (SegList.isSegmental_insert _ _ _).bind fun _ => isSegmental_modifyRecord _ _

theorem isSegmental_removeAt (list : Handle) (index : Int) : IsSegmental (removeAt list index) :=
  (isSegmental_inspect _).bind fun _ => (isSegmental_position _ _).bind fun _ =>
    (SegList.isSegmental_remove _ _).bind fun _ => isSegmental_modifyRecord _ _

theorem isSegmental_clear (list : Handle) : IsSegmental (clear list) :=
  (isSegmental_inspect _).bind fun _ => (SegList.isSegmental_clear _).bind fun _ => isSegmental_modifyRecord _ _

theorem isSegmental_findFrom (storage value : Handle) (count i : Nat) : IsSegmental (findFrom storage value count i) := by
  induction count generalizing i with
  | zero => exact isSegmental_throw _
  | succ count ih =>
    refine (SegList.isSegmental_get _ _).bind fun _ => (isSegmental_inspect _).bind fun result => ?_
    split
    · exact isSegmental_pure _
    · exact ih _

theorem isSegmental_indexOf (list value : Handle) : IsSegmental (indexOf list value) :=
  (isSegmental_inspect _).bind fun _ => isSegmental_findFrom _ _ _ _

end ListObject

namespace DictObject

theorem isSegmental_modifyRecord (dict : Handle) (f : DictRecord → DictRecord) : IsSegmental (modifyRecord dict f) :=
  isSegmental_rewrite fun _ _ read => ⟨_, dictRecord_eq_ok_iff.1 read, rfl⟩

theorem isSegmental_findFrom (keys : Handle) (test : Heap → Handle → Except Error Bool) (count i : Nat) :
    IsSegmental (findFrom keys test count i) := by
  induction count generalizing i with
  | zero => exact isSegmental_pure _
  | succ count ih =>
    refine (SegList.isSegmental_get _ _).bind fun _ => (isSegmental_inspect _).bind fun passed => ?_
    split
    · exact isSegmental_pure _
    · exact ih _

theorem isSegmental_appendEntry (r : DictRecord) (key value : Handle) : IsSegmental (appendEntry r key value) :=
  (SegList.isSegmental_append _ _).bind fun _ =>
    (SegList.isSegmental_append _ _).recover fun e => (SegList.isSegmental_remove _ _).bind fun _ => isSegmental_throw e

theorem isSegmental_set (dict key value : Handle) : IsSegmental (set dict key value) := by
  refine (isSegmental_inspect _).bind fun r => (isSegmental_findFrom _ _ _ _).bind fun found => ?_
  split
  · exact SegList.isSegmental_set _ _ _
  · refine IsSegmental.guarded ((isSegmental_protect _).bind fun _ => (isSegmental_appendEntry _ _ _).bind fun _ => ?_)
    exact isSegmental_modifyRecord _ _

theorem isSegmental_erase (dict key : Handle) : IsSegmental (erase dict key) := by
  refine (isSegmental_inspect _).bind fun r => (isSegmental_findFrom _ _ _ _).bind fun found => ?_
  split
  · exact (SegList.isSegmental_remove _ _).bind fun _ => (SegList.isSegmental_remove _ _).bind fun _ =>
      isSegmental_modifyRecord _ _
  · exact isSegmental_throw _

theorem isSegmental_clear (dict : Handle) : IsSegmental (clear dict) :=
  (isSegmental_inspect _).bind fun _ => (SegList.isSegmental_clear _).bind fun _ => (SegList.isSegmental_clear _).bind fun _ =>
    isSegmental_modifyRecord _ _

end DictObject

end ChunkHeap

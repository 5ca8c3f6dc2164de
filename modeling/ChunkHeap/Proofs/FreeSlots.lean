import ChunkHeap.Proofs.Collector.Exact

/-!
# Slots are reused last released first

Calls on an arena leave a history: which slot was filled with what, which was
released, and which removals were refused. The history alone tells what each slot
holds (`occupant`) and which slots were released and not filled since, the last
released first (`vacated`). It does not say where an insertion has to go: a filled
slot leaves `vacated` wherever it stood.

An arena follows its history (`Occupancy.Follows`): the objects are the occupants and
the list of free slots is `vacated`. One call keeps this, so a run of calls does
(`Occupancy.Follows.run`). An insertion therefore takes the slot released last.

A sweep releases slots in ascending order (`Arena.FreeList.sweep`). The insertions
after it fill these from the highest to the lowest, then what was free before, then
new slots (`Arena.FreeList.slots_insertAll`).
-/

namespace ChunkHeap
set_option autoImplicit false

/-- A call on an arena. The handle of a removal may name a live object or nothing. -/
inductive SlotCall where
  | insert (o : Object)
  | remove (x : Handle)

/-- What a call did: the slot it filled, the slot it released with what it held, or
nothing, when the handle named no object. -/
inductive SlotUse where
  | filled (i : Nat) (o : Object)
  | released (i : Nat) (o : Object)
  | refused (x : Handle)

/-- What slot `j` holds, by a history with the latest call first. -/
def occupant : List SlotUse → Nat → Option Object
  | [], _ => none
  | .filled i o :: past, j => if i = j then some o else occupant past j
  | .released i _ :: past, j => if i = j then none else occupant past j
  | .refused _ :: past, j => occupant past j

/-- The slots released and not filled since, the last released first, by a history
with the latest call first. -/
def vacated : List SlotUse → List Nat
  | [] => []
  | .filled i _ :: past => (vacated past).filter (· ≠ i)
  | .released i _ :: past => i :: vacated past
  | .refused _ :: past => vacated past

namespace Arena

variable {a b : Arena} {free : List Nat} {x : Handle} {o : Object}

/-- Insert objects in order: their handles, and the arena. -/
def insertAll (a : Arena) : List Object → List Handle × Arena
  | [] => ([], a)
  | o :: os => ((a.insert o).1 :: ((a.insert o).2.insertAll os).1, ((a.insert o).2.insertAll os).2)

/-- The slots of the live objects without a mark, in ascending order. -/
def sweptSlots (a : Arena) : List Nat :=
  (List.range a.slots.size).filter fun i => (a.get? ⟨i⟩).any fun o => !o.header.marked

/-! ### One slot at a time -/

theorem slots_insert_other {j : Nat} (other : j ≠ (a.insert o).1.slot) : (a.insert o).2.slots[j]? = a.slots[j]? := by
  unfold insert at other ⊢
  split at other
  · simp [Ne.symm other]
  · simp [Array.getElem?_push, other]

theorem slots_remove_self (h : a.remove x = some (o, b)) : b.slots[x.slot]? = some (.free a.freeHead) := by
  obtain ⟨found, rfl⟩ := remove_eq_some_iff.1 h
  simp [slot_lt_of_get? found]

theorem slots_remove_other (h : a.remove x = some (o, b)) {j : Nat} (other : j ≠ x.slot) :
    b.slots[j]? = a.slots[j]? := by
  obtain ⟨-, rfl⟩ := remove_eq_some_iff.1 h
  simp [Ne.symm other]

/-- The arena grows when no slot is free. -/
theorem FreeList.size_insert (list : a.FreeList free) (o : Object) :
    (a.insert o).2.slots.size = if free = [] then a.slots.size + 1 else a.slots.size := by
  rw [Arena.insert, list.freeHead_eq]
  cases free <;> simp

/-! ### Sweeps and the insertions after them -/

/-- Objects released one after the other are first in line in reverse order. -/
theorem FreeList.discardAll {entries : List (Handle × Object)} (list : a.FreeList free)
    (live : ∀ e ∈ entries, a.get? e.1 = some e.2) (distinct : entries.Pairwise fun e f => e.1 ≠ f.1) :
    (a.discardAll entries).FreeList ((entries.map fun e => e.1.slot).reverse ++ free) := by
  induction entries generalizing a free with
  | nil => exact list
  | cons e rest ih =>
    obtain ⟨apart, distinct⟩ := List.pairwise_cons.1 distinct
    obtain ⟨b, removed, discarded, -⟩ := discard_eq (live e List.mem_cons_self)
    have kept : ∀ f ∈ rest, b.get? f.1 = some f.2 := by
      intro f member
      rw [get?_remove_other removed (apart f member)]
      exact live f (List.mem_cons_of_mem _ member)
    have released := ih (list.remove removed) kept distinct
    rw [discardAll_cons, discarded]
    simpa using released

theorem slots_unmarked (a : Arena) : (a.unmarked.map fun e => e.1.slot) = a.sweptSlots := by
  rw [unmarked, objects_eq_range, sweptSlots, List.filter_filterMap, List.map_filterMap, ← List.filterMap_eq_filter]
  congr
  funext i
  cases found : a.get? ⟨i⟩ with
  | none => simp [Option.guard, found]
  | some o => cases marked : o.header.marked <;> simp [Option.guard, Option.filter, found, marked]

theorem FreeList.sweep (list : a.FreeList free) : a.sweep.FreeList (a.sweptSlots.reverse ++ free) := by
  rw [← slots_unmarked]
  exact list.discardAll (fun e member => (mem_unmarked_iff.1 member).1) a.unmarked_pairwise

/-- Insertions fill the free slots in the order of the list, then new ones. -/
theorem FreeList.slots_insertAll (list : a.FreeList free) (os : List Object) :
    (a.insertAll os).1.map Handle.slot = (free ++ List.range' a.slots.size os.length).take os.length := by
  induction os generalizing a free with
  | nil => rfl
  | cons o os ih =>
    rw [insertAll, List.map_cons, ih (list.insert o), list.slot_insert, list.size_insert, List.length_cons]
    cases free with
    | nil => simp [List.range'_succ]
    | cons i rest =>
      have enough : os.length ≤ (rest ++ List.range' a.slots.size os.length).length := by simp
      simp [List.range'_concat, ← List.append_assoc, List.take_append_of_le_length enough]

end Arena

/-- An arena and the history of the calls on it, the latest first. -/
structure Occupancy where
  arena : Arena := {}
  past : List SlotUse := []

namespace Occupancy

/-- Make one call. -/
def step (s : Occupancy) : SlotCall → Occupancy
  | .insert o => { arena := (s.arena.insert o).2, past := .filled (s.arena.insert o).1.slot o :: s.past }
  | .remove x =>
    match s.arena.remove x with
    | some (o, arena) => { arena, past := .released x.slot o :: s.past }
    | none => { s with past := .refused x :: s.past }

/-- A new arena after a list of calls. -/
def after (calls : List SlotCall) : Occupancy :=
  calls.foldl step {}

/-- The arena is as its history tells. -/
structure Follows (s : Occupancy) : Prop where
  consistent : s.arena.Consistent
  free : s.arena.FreeList (vacated s.past)
  occupants : ∀ x, s.arena.get? x = occupant s.past x.slot
  slots : ∀ i, i < s.arena.slots.size ↔ ∃ o, .filled i o ∈ s.past

variable {s : Occupancy}

/-! ### What one call keeps -/

theorem Follows.new : Follows {} where
  consistent := ⟨⟨[], rfl, List.nodup_nil, by simp, rfl⟩, rfl⟩
  free := ⟨rfl, List.nodup_nil, by simp, rfl⟩
  occupants x := by simp [Arena.get?, occupant]
  slots := by simp

/-- The slot filled stood first, so that leaving the list is leaving its front. -/
theorem Follows.vacated_filled (follows : s.Follows) (o : Object) :
    vacated (.filled (s.arena.insert o).1.slot o :: s.past) = (vacated s.past).tail := by
  have nodup := follows.free.nodup
  rw [vacated, follows.free.slot_insert]
  cases waiting : vacated s.past with
  | nil => rfl
  | cons i rest =>
    rw [waiting] at nodup
    have fresh : ∀ j ∈ rest, j ≠ i := by
      rintro j member rfl
      exact (List.nodup_cons.1 nodup).1 member
    rw [List.head?_cons, Option.getD_some, List.filter_cons_of_neg (by simp), List.tail_cons, List.filter_eq_self]
    exact fun j member => decide_eq_true (fresh j member)

theorem Follows.insert (follows : s.Follows) (o : Object) : (s.step (.insert o)).Follows where
  consistent := follows.consistent.insert o
  free := by
    simp only [step]
    rw [follows.vacated_filled]
    exact follows.free.insert o
  occupants := by
    intro x
    simp only [step, occupant]
    split
    · rename_i here
      obtain rfl := Handle.slot_injective here
      exact s.arena.get?_insert_self o follows.consistent.head_lt
    · rename_i elsewhere
      rw [Arena.get?_insert_other (fun same => elsewhere (congrArg Handle.slot same))]
      exact follows.occupants x
  slots := by
    intro i
    have before := follows.slots i
    have size := follows.free.size_insert o
    have slot := follows.free.slot_insert o
    simp only [step, List.mem_cons, SlotUse.filled.injEq]
    rw [size, slot]
    cases waiting : vacated s.past with
    | nil => grind
    | cons j rest =>
      -- a slot that waits is below the size already
      have below : j < s.arena.slots.size := by
        refine follows.consistent.head_lt j ?_
        rw [follows.free.freeHead_eq, waiting]
        rfl
      grind

theorem Follows.remove (follows : s.Follows) (x : Handle) : (s.step (.remove x)).Follows := by
  simp only [step]
  split
  · rename_i o b removed
    refine ⟨follows.consistent.remove removed, follows.free.remove removed, ?_, ?_⟩
    · intro y
      simp only [occupant]
      split
      · rename_i here
        obtain rfl := Handle.slot_injective here
        exact Arena.get?_remove_self removed
      · rename_i elsewhere
        rw [Arena.get?_remove_other removed (fun same => elsewhere (congrArg Handle.slot same))]
        exact follows.occupants y
    · intro i
      simp only [Arena.size_remove removed, follows.slots i, List.mem_cons, reduceCtorEq, false_or]
  · refine ⟨follows.consistent, follows.free, follows.occupants, ?_⟩
    intro i
    simp only [follows.slots i, List.mem_cons, reduceCtorEq, false_or]

theorem Follows.step (follows : s.Follows) (call : SlotCall) : (s.step call).Follows := by
  cases call with
  | insert o => exact follows.insert o
  | remove x => exact follows.remove x

theorem Follows.run (follows : s.Follows) (calls : List SlotCall) : (calls.foldl Occupancy.step s).Follows := by
  induction calls generalizing s with
  | nil => exact follows
  | cons call rest ih => exact ih (follows.step call)

/-! ### What the next call does -/

/-- The arena is the map its history tells, with the slots it left free as a stack: what
the list of free slots is, and what an insertion, a removal and a sweep do next. -/
structure MapAndStack (s : Occupancy) : Prop where
  /-- The list that starts at `freeHead` ends and holds the released slots, the last first. -/
  chain : s.arena.FreeChain s.arena.freeHead (vacated s.past)
  nodup : (vacated s.past).Nodup
  free : ∀ i, i ∈ vacated s.past ↔ ∃ next, s.arena.slots[i]? = some (.free next)
  contents : ∀ x, s.arena.get? x = occupant s.past x.slot
  slots : ∀ i, i < s.arena.slots.size ↔ ∃ o, .filled i o ∈ s.past
  freeCount : s.arena.freeCount = (vacated s.past).length
  liveCount : s.arena.liveCount = s.arena.handles.length
  /-- An insertion never finds an object at the head of the list, nor a count of zero. -/
  head : ∀ i, s.arena.freeHead = some i →
    (∃ next, s.arena.slots[i]? = some (.free next)) ∧ 0 < s.arena.freeCount
  /-- It takes the slot released last, or a new one, and touches no other. -/
  insertion : ∀ o, (s.arena.insert o).1.slot = (vacated s.past).head?.getD s.arena.slots.size ∧
    (s.arena.insert o).2.slots[(s.arena.insert o).1.slot]? = some (.live o) ∧
    ∀ j, j ≠ (s.arena.insert o).1.slot → (s.arena.insert o).2.slots[j]? = s.arena.slots[j]?
  /-- A removal hands the object out, puts its slot first in line and touches no other. -/
  removal : ∀ x o, s.arena.get? x = some o → ∃ b, s.arena.remove x = some (o, b) ∧ 0 < s.arena.liveCount ∧
    b.freeHead = some x.slot ∧ b.slots[x.slot]? = some (.free s.arena.freeHead) ∧
    ∀ j, j ≠ x.slot → b.slots[j]? = s.arena.slots[j]?
  /-- A handle that names nothing is refused and changes nothing. -/
  refusal : ∀ x, s.arena.get? x = none → s.arena.remove x = none ∧ s.arena.discard x = s.arena
  /-- With any marks, the insertions after a sweep fill the swept slots from the highest to
  the lowest, then those free before, then new ones. -/
  sweep : ∀ (mark : Handle → Object → Object) (os : List Object),
    ((s.arena.adjust mark).sweep.insertAll os).1.map Handle.slot =
      ((s.arena.adjust mark).sweptSlots.reverse ++ vacated s.past ++
        List.range' s.arena.slots.size os.length).take os.length

theorem Follows.slots_insert_self (follows : s.Follows) (o : Object) :
    (s.arena.insert o).2.slots[(s.arena.insert o).1.slot]? = some (.live o) := by
  rw [← Arena.get?_eq_some_iff]
  exact s.arena.get?_insert_self o follows.consistent.head_lt

theorem Follows.removal (follows : s.Follows) {x : Handle} {o : Object} (found : s.arena.get? x = some o) :
    ∃ b, s.arena.remove x = some (o, b) ∧ 0 < s.arena.liveCount ∧ b.freeHead = some x.slot ∧
      b.slots[x.slot]? = some (.free s.arena.freeHead) ∧ ∀ j, j ≠ x.slot → b.slots[j]? = s.arena.slots[j]? := by
  obtain ⟨b, removed, -⟩ := Arena.discard_eq found
  refine ⟨b, removed, ?_, ?_, Arena.slots_remove_self removed, fun j other => Arena.slots_remove_other removed other⟩
  · rw [follows.consistent.live]
    exact List.length_pos_of_mem (Arena.mem_objects_iff.2 found)
  · rw [(follows.free.remove removed).freeHead_eq]
    rfl

theorem Follows.slots_after_sweep (follows : s.Follows) (mark : Handle → Object → Object) (os : List Object) :
    ((s.arena.adjust mark).sweep.insertAll os).1.map Handle.slot =
      ((s.arena.adjust mark).sweptSlots.reverse ++ vacated s.past ++
        List.range' s.arena.slots.size os.length).take os.length := by
  obtain ⟨-, -, -, size⟩ := Arena.sweep_spec (follows.consistent.adjust mark)
  rw [(follows.free.adjust mark).sweep.slots_insertAll, size, Arena.size_adjust]

/-- **An arena is a map with a stack of free slots.** This holds after every list of
insertions and removals, whatever handles the removals are given. -/
theorem after_mapAndStack (calls : List SlotCall) : (after calls).MapAndStack := by
  have follows : (after calls).Follows := Follows.new.run calls
  exact {
    chain := follows.free.chain
    nodup := follows.free.nodup
    free := fun i => follows.free.mem_iff
    contents := follows.occupants
    slots := follows.slots
    freeCount := follows.free.count
    liveCount := by rw [Arena.length_handles]; exact follows.consistent.live
    head := by
      intro i head
      have free := follows.free.head_free head
      refine ⟨free, ?_⟩
      rw [follows.free.count]
      exact List.length_pos_of_mem (follows.free.mem_iff.2 free)
    insertion := fun o => ⟨follows.free.slot_insert o, follows.slots_insert_self o, fun _ => Arena.slots_insert_other⟩
    removal := fun x o => follows.removal
    refusal := by
      intro x dead
      have refused := (Arena.remove_eq_none_iff _ x).2 dead
      exact ⟨refused, by rw [Arena.discard, refused]⟩
    sweep := follows.slots_after_sweep }

/-- Slots 0 and 2 are released, the second one twice, and a slot that was never filled. -/
example :
    let o : Object := { header := { tag := .none, chunkBytes := 8 }, payload := .none }
    ((after [.insert o, .insert o, .insert o, .remove ⟨0⟩, .remove ⟨2⟩, .remove ⟨2⟩, .remove ⟨7⟩]).arena.insertAll
      [o, o, o]).1 = [⟨2⟩, ⟨0⟩, ⟨3⟩] := by
  decide +kernel

end Occupancy

end ChunkHeap

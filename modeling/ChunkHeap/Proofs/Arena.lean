import ChunkHeap.Heap.Collect
import Mathlib.Algebra.BigOperators.Group.List.Basic
import Mathlib.Algebra.GroupWithZero.Nat

/-!
# Consistent arenas

An arena is consistent when its free slots form one finite list, started by
`freeHead` and threaded through the slots themselves, and when both counters
are right. `FreeList` names that list: an insertion takes its first slot
(`FreeList.insert`), a removal puts one in front (`FreeList.remove`). So
`Consistent.insert` and `Consistent.remove` keep an arena consistent; updating an
object in place and clearing the marks change neither the list nor a counter.

Figures over the live objects are sums of one weight for each object
(`Arena.weight`). An insertion adds the weight of the new object and a removal
takes the weight of the old one away, so the object count and the bytes in use
follow from the same three lemmas.
-/

namespace ChunkHeap
set_option autoImplicit false

/-- Totals are sums, so what is known of sums of lists is known of them. -/
theorem total_eq_sum {α : Type} (w : α → Nat) (l : List α) : total w l = (l.map w).sum := by
  rw [total, List.sum_eq_foldr, List.foldr_map]

namespace Slot

/-- The weight of the object in a slot, nothing for a free one. -/
def weigh (w : Object → Nat) (s : Slot) : Nat :=
  (s.object?.map w).getD 0

@[simp] theorem weigh_live (w : Object → Nat) (o : Object) : (live o).weigh w = w o := rfl

@[simp] theorem weigh_free (w : Object → Nat) (next : Option Nat) : (free next).weigh w = 0 := rfl

end Slot

namespace Arena

/-- The free slots from `start` on, in the order in which they will be filled. -/
def FreeChain (a : Arena) : Option Nat → List Nat → Prop
  | start, [] => start = none
  | start, i :: rest => start = some i ∧ ∃ next, a.slots[i]? = some (.free next) ∧ a.FreeChain next rest

/-- `free` is the list of free slots: `freeHead` starts it, each free slot is on it
once and nothing else, and the counter says how many there are. -/
structure FreeList (a : Arena) (free : List Nat) : Prop where
  chain : a.FreeChain a.freeHead free
  nodup : free.Nodup
  covers : ∀ i next, a.slots[i]? = some (.free next) → i ∈ free
  count : a.freeCount = free.length

/-- There is a finite list of free slots, and the counters say how many slots of
each sort there are. -/
structure Consistent (a : Arena) : Prop where
  freeList : ∃ free, a.FreeList free
  live : a.liveCount = a.objects.length

/-- The sum of a weight over the live objects. -/
def weight (w : Object → Nat) (a : Arena) : Nat :=
  total (fun e => w e.2) a.objects

/-- The bytes charged for the live objects. -/
def chunkTotal (a : Arena) : Nat :=
  a.weight fun o => o.header.chunkBytes

/-! ### The view as a list -/

theorem get?_eq_some_iff {a : Arena} {x : Handle} {o : Object} :
    a.get? x = some o ↔ a.slots[x.slot]? = some (.live o) := by
  unfold get?
  cases h : a.slots[x.slot]? with
  | none => simp
  | some s => cases s <;> simp

theorem slot_lt_of_get? {a : Arena} {x : Handle} {o : Object} (h : a.get? x = some o) : x.slot < a.slots.size := by
  have found := get?_eq_some_iff.1 h
  exact (Array.getElem?_eq_some_iff.1 found).1

theorem size_remove {a b : Arena} {x : Handle} {o : Object} (h : a.remove x = some (o, b)) :
    b.slots.size = a.slots.size := by
  obtain ⟨-, rfl⟩ := remove_eq_some_iff.1 h
  simp

/-- The live objects, read off the view slot by slot. -/
theorem objects_eq_range (a : Arena) :
    a.objects = (List.range a.slots.size).filterMap fun i => (a.get? ⟨i⟩).map fun o => (⟨i⟩, o) := by
  have indexed : a.slots.toList.zipIdx = (List.range a.slots.size).map fun i => (a.slots.getD i (.free none), i) := by
    apply List.ext_getElem
    · simp
    · intro i left right
      have bound : i < a.slots.size := by simpa using left
      simp [bound]
  have read : ∀ i, (a.slots.getD i (.free none)).object? = a.get? ⟨i⟩ := by
    intro i
    rw [get?, Array.getD_eq_getD_getElem?]
    cases a.slots[i]? <;> rfl
  simp only [objects, indexed, List.filterMap_map, Function.comp_def, read]

/-- Slot numbers of the live objects grow along the list. -/
theorem objects_pairwise (a : Arena) : a.objects.Pairwise fun e f => e.1 ≠ f.1 := by
  rw [objects_eq_range, List.pairwise_filterMap]
  refine List.nodup_range.imp ?_
  intro i j different e first f second same
  obtain ⟨o, _, rfl⟩ := Option.map_eq_some_iff.1 first
  obtain ⟨o', _, rfl⟩ := Option.map_eq_some_iff.1 second
  exact different (Handle.mk.inj same)

theorem handles_nodup (a : Arena) : a.handles.Nodup := by
  rw [handles, List.Nodup, List.pairwise_map]
  exact a.objects_pairwise

theorem mem_handles_iff {a : Arena} {x : Handle} : x ∈ a.handles ↔ ∃ o, a.get? x = some o := by
  simp only [handles, List.mem_map, Prod.exists, exists_and_right, exists_eq_right, mem_objects_iff]

theorem length_objects (a : Arena) : a.objects.length = a.weight fun _ => 1 := by
  simp [weight, total_eq_sum]

theorem length_handles (a : Arena) : a.handles.length = a.objects.length := by
  simp [handles]

/-- Distinct live objects fill distinct slots. -/
theorem length_le_size {a : Arena} {xs : List Handle} (distinct : xs.Nodup) (live : ∀ x ∈ xs, ∃ o, a.get? x = some o) :
    xs.length ≤ a.slots.size := by
  have slots : (xs.map Handle.slot).Nodup := by
    refine List.Pairwise.map _ ?_ distinct
    intro x y different same
    exact different (Handle.slot_injective same)
  have inside : xs.map Handle.slot ⊆ List.range a.slots.size := by
    intro i member
    obtain ⟨x, listed, rfl⟩ := List.mem_map.1 member
    obtain ⟨o, found⟩ := live x listed
    exact List.mem_range.2 (slot_lt_of_get? found)
  simpa using (List.subperm_of_subset slots inside).length_le

/-! ### What the operations do to a sum -/

theorem weight_eq_total_slots (w : Object → Nat) (a : Arena) :
    a.weight w = total (Slot.weigh w) a.slots.toList := by
  have tagged : ∀ (l : List Slot) (n : Nat),
      total (fun e => w e.2) ((l.zipIdx n).filterMap fun e => e.1.object?.map fun o => ((⟨e.2⟩ : Handle), o)) =
        total (Slot.weigh w) l := by
    intro l
    induction l with
    | nil => intro n; rfl
    | cons s rest ih =>
      intro n
      cases s with
      | live o => simp [List.zipIdx_cons, ih]
      | free next => simp [List.zipIdx_cons, List.filterMap_cons, ih]
  exact tagged a.slots.toList 0

/-- Replacing one slot moves a sum by the difference of two weights. -/
theorem total_weigh_set (w : Object → Nat) (l : List Slot) {i : Nat} {s : Slot} (t : Slot) (found : l[i]? = some s) :
    total (Slot.weigh w) (l.set i t) + s.weigh w = total (Slot.weigh w) l + t.weigh w := by
  induction l generalizing i with
  | nil => simp at found
  | cons u rest ih =>
    cases i with
    | zero =>
      obtain rfl : u = s := by simpa using found
      simp only [List.set_cons_zero, total_cons]
      omega
    | succ i =>
      have step := ih (i := i) (by simpa using found)
      simp only [List.set_cons_succ, total_cons]
      omega

theorem weight_set (w : Object → Nat) {a b : Arena} {i : Nat} {s t : Slot} (found : a.slots[i]? = some s)
    (stored : b.slots = a.slots.setIfInBounds i t) : b.weight w + s.weigh w = a.weight w + t.weigh w := by
  rw [weight_eq_total_slots, weight_eq_total_slots, stored, Array.toList_setIfInBounds]
  exact total_weigh_set w a.slots.toList t (by simpa using found)

theorem weight_insert (w : Object → Nat) {a : Arena} (o : Object)
    (head : ∀ i, a.freeHead = some i → ∃ next, a.slots[i]? = some (.free next)) :
    (a.insert o).2.weight w = a.weight w + w o := by
  unfold insert
  split
  · rename_i i first
    obtain ⟨next, found⟩ := head i first
    exact weight_set w (t := .live o) found rfl
  · simp [weight_eq_total_slots, total_eq_sum]

theorem weight_remove (w : Object → Nat) {a b : Arena} {x : Handle} {o : Object} (h : a.remove x = some (o, b)) :
    b.weight w + w o = a.weight w := by
  obtain ⟨found, rfl⟩ := remove_eq_some_iff.1 h
  exact weight_set w (t := .free a.freeHead) (get?_eq_some_iff.1 found) rfl

/-! ### The list of free slots -/

theorem FreeChain.congr {a b : Arena} {start : Option Nat} {free : List Nat} (chain : a.FreeChain start free)
    (same : ∀ i ∈ free, b.slots[i]? = a.slots[i]?) : b.FreeChain start free := by
  induction free generalizing start with
  | nil => exact chain
  | cons i rest ih =>
    obtain ⟨first, next, found, tail⟩ := chain
    refine ⟨first, next, ?_, ih tail fun j later => same j (List.mem_cons_of_mem i later)⟩
    rw [same i List.mem_cons_self, found]

theorem FreeChain.isFree {a : Arena} {start : Option Nat} {free : List Nat} (chain : a.FreeChain start free)
    {i : Nat} (member : i ∈ free) : ∃ next, a.slots[i]? = some (.free next) := by
  induction free generalizing start with
  | nil => simp at member
  | cons j rest ih =>
    obtain ⟨_, next, found, tail⟩ := chain
    rcases List.mem_cons.1 member with rfl | later
    · exact ⟨next, found⟩
    · exact ih tail later

namespace FreeList

variable {a b : Arena} {free : List Nat} {x : Handle} {o : Object}

theorem mem_iff (list : a.FreeList free) {i : Nat} : i ∈ free ↔ ∃ next, a.slots[i]? = some (.free next) := by
  constructor
  · exact list.chain.isFree
  · rintro ⟨next, found⟩
    exact list.covers i next found

theorem freeHead_eq (list : a.FreeList free) : a.freeHead = free.head? := by
  have chain := list.chain
  cases free with
  | nil => exact chain
  | cons i rest => exact chain.1

theorem head_free (list : a.FreeList free) {i : Nat} (head : a.freeHead = some i) :
    ∃ next, a.slots[i]? = some (.free next) := by
  rw [list.freeHead_eq] at head
  exact list.mem_iff.1 (List.mem_of_head? head)

/-- The slot to be filled next: the first free one, or a new one. -/
theorem slot_insert (list : a.FreeList free) (o : Object) :
    (a.insert o).1.slot = free.head?.getD a.slots.size := by
  rw [Arena.insert, list.freeHead_eq]
  cases free <;> rfl

/-- Filling a slot takes it off the list; the others stay in order. -/
theorem insert (list : a.FreeList free) (o : Object) : (a.insert o).2.FreeList free.tail := by
  obtain ⟨chain, nodup, covers, count⟩ := list
  cases free with
  | nil =>
    have head : a.freeHead = none := chain
    refine ⟨?_, List.nodup_nil, ?_, ?_⟩
    · simp [Arena.insert, head, FreeChain]
    · intro i next found
      simp only [Arena.insert, head, Array.getElem?_push] at found
      split at found
      · cases found
      · exact covers i next found
    · simpa [Arena.insert, head] using count
  | cons i rest =>
    obtain ⟨head, next, found, tail⟩ := chain
    obtain ⟨fresh, nodup⟩ := List.nodup_cons.1 nodup
    have following : a.nextFree i = next := by simp [nextFree, found]
    refine ⟨?_, nodup, ?_, ?_⟩
    · simp only [Arena.insert, head, following]
      refine tail.congr ?_
      intro j later
      have different : i ≠ j := fun same => fresh (same ▸ later)
      simp [different]
    · intro j after free
      simp only [Arena.insert, head, Array.getElem?_setIfInBounds] at free
      split at free
      · split at free
        · cases free
        · cases free
      · rename_i different
        rcases List.mem_cons.1 (covers j after free) with same | later
        · exact absurd same.symm different
        · exact later
    · simp [Arena.insert, head, count]

/-- A released slot goes to the front of the list. -/
theorem remove (list : a.FreeList free) (h : a.remove x = some (o, b)) : b.FreeList (x.slot :: free) := by
  obtain ⟨found, rfl⟩ := remove_eq_some_iff.1 h
  have slot := get?_eq_some_iff.1 found
  have bound := slot_lt_of_get? found
  have fresh : x.slot ∉ free := by
    intro listed
    obtain ⟨next, free⟩ := list.mem_iff.1 listed
    rw [slot] at free
    cases free
  refine ⟨⟨rfl, a.freeHead, by simp [bound], ?_⟩, List.nodup_cons.2 ⟨fresh, list.nodup⟩, ?_, ?_⟩
  · refine list.chain.congr ?_
    intro i listed
    have different : x.slot ≠ i := fun same => fresh (same ▸ listed)
    simp [different]
  · intro i next free
    by_cases same : x.slot = i
    · simp [same]
    · rw [Array.getElem?_setIfInBounds_ne same] at free
      exact List.mem_cons_of_mem _ (list.covers i next free)
  · simp [list.count]

end FreeList

namespace Consistent

variable {a b : Arena} {x : Handle} {o : Object}

theorem head_free (ok : a.Consistent) {i : Nat} (head : a.freeHead = some i) :
    ∃ next, a.slots[i]? = some (.free next) := by
  obtain ⟨free, list⟩ := ok.freeList
  exact list.head_free head

theorem head_lt (ok : a.Consistent) (i : Nat) (head : a.freeHead = some i) : i < a.slots.size := by
  obtain ⟨next, found⟩ := ok.head_free head
  exact (Array.getElem?_eq_some_iff.1 found).1

/-- Every slot is live or on the list of free slots, and none is both. -/
theorem live_add_free (ok : a.Consistent) : a.liveCount + a.freeCount = a.slots.size := by
  obtain ⟨free, list⟩ := ok.freeList
  have split : List.Perm (a.handles.map Handle.slot ++ free) (List.range a.slots.size) := by
    rw [List.perm_ext_iff_of_nodup ?_ List.nodup_range]
    · intro i
      simp only [List.mem_append, List.mem_map, mem_handles_iff, List.mem_range]
      constructor
      · rintro (⟨x, ⟨o, found⟩, rfl⟩ | listed)
        · exact slot_lt_of_get? found
        · obtain ⟨next, found⟩ := list.mem_iff.1 listed
          exact (Array.getElem?_eq_some_iff.1 found).1
      · intro bound
        cases found : a.slots[i] with
        | live o => exact .inl ⟨⟨i⟩, ⟨o, get?_eq_some_iff.2 (by simp [bound, found])⟩, rfl⟩
        | free next => exact .inr (list.covers i next (by simp [bound, found]))
    · refine List.nodup_append.2 ⟨?_, list.nodup, ?_⟩
      · refine List.Pairwise.map _ ?_ a.handles_nodup
        intro x y different same
        exact different (Handle.slot_injective same)
      · rintro i taken j listed rfl
        obtain ⟨x, member, rfl⟩ := List.mem_map.1 taken
        obtain ⟨o, found⟩ := mem_handles_iff.1 member
        obtain ⟨next, free⟩ := list.mem_iff.1 listed
        rw [get?_eq_some_iff.1 found] at free
        cases free
  have total := split.length_eq
  rw [List.length_append, List.length_map, length_handles, List.length_range, ← ok.live, ← list.count] at total
  exact total

/-- With nothing at the head of the list, no slot is free. -/
theorem free_eq_zero (ok : a.Consistent) (head : a.freeHead = none) : a.freeCount = 0 := by
  obtain ⟨free, list⟩ := ok.freeList
  have empty : free = [] := List.head?_eq_none_iff.1 (list.freeHead_eq.symm.trans head)
  rw [list.count, empty]
  rfl

theorem objects_insert (ok : a.Consistent) (o : Object) :
    (a.insert o).2.objects.length = a.objects.length + 1 := by
  rw [length_objects, length_objects]
  exact weight_insert _ o fun _ head => ok.head_free head

theorem insert (ok : a.Consistent) (o : Object) : (a.insert o).2.Consistent := by
  obtain ⟨free, list⟩ := ok.freeList
  refine ⟨⟨_, list.insert o⟩, ?_⟩
  rw [ok.objects_insert, ← ok.live]
  unfold Arena.insert
  split <;> rfl

theorem remove (ok : a.Consistent) (h : a.remove x = some (o, b)) : b.Consistent := by
  obtain ⟨free, list⟩ := ok.freeList
  refine ⟨⟨_, list.remove h⟩, ?_⟩
  have lighter := weight_remove (fun _ => 1) h
  rw [← length_objects, ← length_objects] at lighter
  have counted : b.liveCount = a.liveCount - 1 := congrArg Arena.liveCount (remove_eq_some_iff.1 h).2
  rw [counted, ok.live]
  omega

end Consistent

/-! ### Changes in place -/

/-- Change every live object in place, each by its handle. -/
def adjust (a : Arena) (f : Handle → Object → Object) : Arena :=
  { a with slots := a.slots.mapIdx fun i s => s.mapObject (f ⟨i⟩) }

@[simp] theorem get?_adjust (a : Arena) (f : Handle → Object → Object) (x : Handle) :
    (a.adjust f).get? x = (a.get? x).map (f x) := by
  simp only [get?, adjust, Array.getElem?_mapIdx]
  cases a.slots[x.slot]? <;> simp

@[simp] theorem size_adjust (a : Arena) (f : Handle → Object → Object) :
    (a.adjust f).slots.size = a.slots.size := by
  simp [adjust]

theorem adjust_adjust (a : Arena) (f g : Handle → Object → Object) :
    (a.adjust f).adjust g = a.adjust fun x o => g x (f x o) := by
  simp only [adjust, Array.mapIdx_mapIdx, mk.injEq, and_self, and_true]
  congr
  funext i s
  cases s <;> rfl

theorem update_eq_adjust (a : Arena) (x : Handle) (f : Object → Object) :
    a.update x f = a.adjust fun y o => if x = y then f o else o := by
  obtain ⟨i⟩ := x
  simp only [update, adjust, mk.injEq, and_self, and_true]
  apply Array.ext_getElem?
  intro j
  rw [Array.getElem?_modify, Array.getElem?_mapIdx]
  cases a.slots[j]? with
  | none => simp
  | some s => cases s <;> by_cases same : i = j <;> simp [Slot.mapObject, same]

theorem clearMarks_eq_adjust (a : Arena) :
    a.clearMarks = a.adjust fun _ o => { o with header := { o.header with marked := false } } := by
  simp only [clearMarks, adjust, mk.injEq, and_self, and_true]
  apply Array.ext_getElem?
  intro j
  rw [Array.getElem?_map, Array.getElem?_mapIdx]

theorem objects_adjust (a : Arena) (f : Handle → Object → Object) :
    (a.adjust f).objects = a.objects.map fun e => (e.1, f e.1 e.2) := by
  rw [objects_eq_range, objects_eq_range, List.map_filterMap, size_adjust]
  congr
  funext i
  simp only [get?_adjust]
  cases a.get? ⟨i⟩ <;> rfl

theorem weight_adjust (w : Object → Nat) (a : Arena) {f : Handle → Object → Object}
    (same : ∀ x o, w (f x o) = w o) : (a.adjust f).weight w = a.weight w := by
  simp only [weight, total_eq_sum, objects_adjust, List.map_map, Function.comp_def, same]

theorem adjust_free_iff (a : Arena) (f : Handle → Object → Object) (i : Nat) (next : Option Nat) :
    (a.adjust f).slots[i]? = some (.free next) ↔ a.slots[i]? = some (.free next) := by
  simp only [adjust, Array.getElem?_mapIdx]
  cases a.slots[i]? with
  | none => simp
  | some s => cases s <;> simp [Slot.mapObject]

theorem FreeChain.adjust {a : Arena} {start : Option Nat} {free : List Nat} (chain : a.FreeChain start free)
    (f : Handle → Object → Object) : (a.adjust f).FreeChain start free := by
  induction free generalizing start with
  | nil => exact chain
  | cons i rest ih =>
    obtain ⟨first, next, found, tail⟩ := chain
    exact ⟨first, next, (a.adjust_free_iff f i next).2 found, ih tail⟩

theorem FreeList.adjust {a : Arena} {free : List Nat} (list : a.FreeList free) (f : Handle → Object → Object) :
    (a.adjust f).FreeList free where
  chain := list.chain.adjust f
  nodup := list.nodup
  covers i next found := list.covers i next ((a.adjust_free_iff f i next).1 found)
  count := list.count

/-- Changing objects in place leaves the free slots and the counters alone. -/
theorem Consistent.adjust {a : Arena} (ok : a.Consistent) (f : Handle → Object → Object) :
    (a.adjust f).Consistent := by
  obtain ⟨free, list⟩ := ok.freeList
  have same : (a.adjust f).objects.length = a.objects.length := by simp [objects_adjust]
  exact ⟨⟨free, list.adjust f⟩, ok.live.trans same.symm⟩

end Arena

end ChunkHeap

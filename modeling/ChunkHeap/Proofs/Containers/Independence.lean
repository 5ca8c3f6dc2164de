import ChunkHeap.Proofs.Containers.Splices
import ChunkHeap.Proofs.Regions
import Mathlib.Logic.Relation

/-!
# Lists that do not share

Every list has a storage of its own, and every storage its own segments. So whatever
changes one list leaves the others as they are (`Machine.unmoved`), also when their
elements are the same objects.

Single updates are dealt with by their effects. Storing into a slice is made of many
updates: while elements are removed or replaced nothing is collected, and while None is
inserted everything within reach stays within reach, so in each phase what the other
objects show is kept (`ListObject.Revises`).
-/

namespace ChunkHeap
set_option autoImplicit false

open HeapM Heap

namespace Heap

variable {h g k : Heap} {l s t u x y : Handle} {xs ys : List Handle} {pin : Option Handle} {S : Handle → Prop}

/-- From `h` to `g` the list `l`, kept in `s`, may have come to have other elements. -/
structure Revised (pin : Option Handle) (l s : Handle) (h g : Heap) : Prop extends Shows pin (Own l s) h g where
  sound : g.Sound none
  list : ∃ xs, g.HasItems l s xs

theorem Shows.refl (h : Heap) : Shows pin S h h :=
  { Upkeep.refl h with old := fun _ _ _ shown => shown, kept := fun _ _ _ => rfl, held := fun _ held => held }

theorem Revised.refl (sound : h.Sound none) (list : ∃ xs, h.HasItems l s xs) : Revised pin l s h h :=
  { Shows.refl h with sound := sound, list := list }

theorem Revised.trans (first : Revised pin l s h g) (second : Revised pin l s g k) : Revised pin l s h k :=
  { first.toShows.trans second.toShows with sound := second.sound, list := second.list }

/-- What the roots lead to stays within reach when nothing is changed. -/
theorem Altered.anchored (altered : Altered (fun _ => False) h g) (sound : h.Sound none) (anchored : h.Anchored y) :
    g.Anchored y := by
  have persists : Persists h.Anchored h g := fun x within => altered.kept x not_false within.1
  exact persists.rooted sound altered.sound.toShaped altered.roots_subset anchored

theorem Altered.shows (altered : Altered S h g) (held : ∀ y, h.Anchored y → g.Anchored y) : Shows (some x) S h g :=
  { altered.toUpkeep with
    old := altered.old
    kept := fun y outside anchored => altered.kept y outside anchored.1
    held := held }

theorem element_of_sequenceItems (read : h.sequenceItems x = .ok xs) : h.Element x := by
  rcases supplies_of_sequenceItems read with list | tuple
  · obtain ⟨r, record, -⟩ := except_bind_ok list
    exact ⟨_, listRecord_eq_ok_iff.1 record, by simp [Payload.tag]⟩
  · exact ⟨_, tupleItems_eq_ok_iff.1 tuple, by simp [Payload.tag]⟩

/-- A list lasts when all that the roots lead to persists. -/
theorem HasItems.persists (has : h.HasItems l s xs) (shaped : h.Shaped) (rooted : h.Rooted l)
    (persists : Persists h.Anchored h g) : g.HasItems l s xs := by
  have storage : h.Anchored s := ⟨has.rooted_storage rooted, shaped.element_iff.2 ⟨_, has.storage⟩⟩
  constructor
  · exact (persists l ⟨rooted, has.element⟩).trans has.record
  · exact (persists s storage).trans has.storage

/-- Two lists have storages of their own, and these have segments of their own. -/
def Apart (h : Heap) (l t : Handle) : Prop :=
  ∃ r q c d, h.find? l = some (.list r) ∧ h.find? t = some (.list q) ∧ r.storage ≠ q.storage ∧
    h.Carries r.storage c ∧ h.Carries q.storage d ∧ ∀ x ∈ c.map Prod.fst, x ∉ d.map Prod.fst

theorem HasItems.apart (has : h.HasItems l s xs) (other : h.HasItems t u ys) (sound : h.Sound none) (different : l ≠ t) :
    h.Apart l t := by
  obtain ⟨c, carries, -⟩ := sound.carries_of_items has.storage
  obtain ⟨d, carries', -⟩ := sound.carries_of_items other.storage
  have storages : s ≠ u := by
    rintro rfl
    exact different (sound.owner _ _ _ _ s has.find? other.find? List.mem_cons_self List.mem_cons_self)
  exact ⟨_, _, c, d, has.find?, other.find?, storages, carries, carries', sound.disjoint s u c d carries carries' storages⟩

end Heap

namespace ListObject

variable {α β : Type} {m : Machine} {l s x source : Handle} {xs items needed : List Handle} {pin : Option Handle}

/-! ### Updates in sequence -/

/-- The operation does nothing but revise the list `l`, kept in `s`, whether it succeeds or
fails, as long as what is `needed` lasts. -/
def Revises (pin : Option Handle) (l s : Handle) (needed : List Handle) (op : HeapM α) : Prop :=
  ∀ m, m.heap.Sound none → (∃ xs, m.heap.HasItems l s xs) → (∀ y ∈ needed, m.heap.Held pin y) →
    Revised pin l s m.heap (op.run m).2.heap

theorem revises_pure (a : α) : Revises pin l s needed (pure a : HeapM α) :=
  fun _ sound list _ => .refl sound list

theorem Revises.bind {op : HeapM α} {f : α → HeapM β} (first : Revises pin l s needed op)
    (second : ∀ a, Revises pin l s needed (f a)) : Revises pin l s needed (op >>= f) := by
  intro m sound list held
  have revised := first m sound list held
  rw [run_bind]
  rcases ran : op.run m with ⟨e | a, m'⟩ <;> rw [ran] at revised
  · exact revised
  · exact revised.trans (second a m' revised.sound revised.list fun y member => revised.held y (held y member))

theorem Revises.times {op : HeapM Unit} (revises : Revises pin l s needed op) (n : Nat) :
    Revises pin l s needed (times n op) := by
  induction n with
  | zero => exact revises_pure ()
  | succ n ih => exact revises.bind fun _ => ih

theorem revises_removeAt (l s : Handle) (needed : List Handle) (index : Int) :
    Revises none l s needed (removeAt l index) := by
  rintro m sound ⟨xs, has⟩ -
  have kept : Kept false (fun _ => True) m.heap ((removeAt l index).run m).2.heap :=
    (keeps_removeAt (fun _ => False) l index m sound fun _ none => none.elim).1
  rw [removeAt, run_bind_ok (run_record has)] at kept ⊢
  cases named : Position.element? index xs.length with
  | none =>
    rw [run_bind_error (run_position_error (r := ⟨xs.length, s⟩) named)]
    exact .refl sound ⟨xs, has⟩
  | some i =>
    rw [run_bind_ok (run_position_ok (r := ⟨xs.length, s⟩) named)] at kept ⊢
    obtain ⟨c, carries, items⟩ := sound.carries_of_items has.storage
    have inside := Position.element?_lt named
    obtain ⟨m₁, ran, filled⟩ := SegList.remove_filled sound.orderly carries (items ▸ inside)
    rw [items] at filled
    have held : m.heap.Held none l := has.element
    obtain ⟨m₂, wrote, shows, after⟩ :=
      run_recount (· - 1) sound has held items ran filled (by simp) (List.length_eraseIdx_of_lt inside)
    rw [wrote] at kept ⊢
    exact { shows with sound := kept.sound, list := ⟨_, after⟩ }

theorem revises_set (l s : Handle) (index : Int) (member : x ∈ needed) : Revises none l s needed (set l index x) := by
  rintro m sound ⟨xs, has⟩ elements
  have element : m.heap.Element x := elements x member
  have kept : Kept false (fun _ => True) m.heap ((set l index x).run m).2.heap :=
    (keeps_set (· = x) l index rfl m sound fun y same => same ▸ element).1
  rw [set, run_bind_ok (run_record has)] at kept ⊢
  cases named : Position.element? index xs.length with
  | none =>
    rw [run_bind_error (run_position_error (r := ⟨xs.length, s⟩) named)]
    exact .refl sound ⟨xs, has⟩
  | some i =>
    rw [run_bind_ok (run_position_ok (r := ⟨xs.length, s⟩) named)] at kept ⊢
    obtain ⟨c, carries, items⟩ := sound.carries_of_items has.storage
    obtain ⟨m', ran, filled⟩ := SegList.set_filled sound.orderly carries element (items ▸ Position.element?_lt named)
    obtain ⟨shows, stored, -⟩ := filled.shows sound (by simp)
    rw [items] at stored
    rw [ran] at kept ⊢
    have record : m'.heap.content? l = some (.record (.list ⟨(xs.set i x).length, s⟩)) := by
      rw [shows.kept l has.ne has.element, has.record, List.length_set]
    exact { shows.mono fun y same => .inr same with sound := kept.sound, list := ⟨_, record, stored⟩ }

/-- Inserting keeps what is within reach, also when there is no room. -/
theorem revises_insert (s : Handle) (index : Int) (list : l ∈ needed) (member : x ∈ needed) :
    Revises (some x) l s needed (insert l index x) := by
  rintro m sound ⟨xs, has⟩ anchored
  have kept := insert_anchored sound (anchored l list) (anchored x member).2 index
  have effect := insert_effect sound has (anchored l list).1 (anchored x member).2 index
  generalize (insert l index x).run m = result at kept effect
  cases effect with
  | noRoom _ altered _ =>
    have same := has.altered altered (anchored l list).1 not_false not_false
    exact { (altered.shows fun y => altered.anchored sound).mono fun _ none => none.elim with
      sound := altered.sound, list := ⟨xs, same⟩ }
  | done altered after => exact { altered.shows (kept () rfl) with sound := altered.sound, list := ⟨_, after⟩ }

theorem revises_storeFrom (l s : Handle) (i : Nat) (subset : items ⊆ needed) :
    Revises none l s needed (storeFrom l i items) := by
  induction items generalizing i with
  | nil => exact revises_pure ()
  | cons x items ih =>
    apply (revises_set l s i (subset List.mem_cons_self)).bind
    exact fun _ => ih (i + 1) fun y member => subset (List.mem_cons_of_mem x member)

/-! ### Storing into a slice -/

/-- The list becomes shorter, and takes its elements without a collection. -/
theorem resettle_altered_shorter {filler : Handle} {surplus lo : Nat} (sound : m.heap.Sound none) (has : m.heap.HasItems l s xs)
    (elements : ∀ y ∈ items, m.heap.Element y) :
    Altered (Own l s) m.heap ((resettle l filler items surplus 0 lo).run m).2.heap := by
  have revises : Revises none l s items (resettle l filler items surplus 0 lo) :=
    ((revises_removeAt l s items lo).times surplus).bind fun _ =>
      ((revises_pure ()).bind fun _ => revises_storeFrom l s lo (List.Subset.refl items))
  have revised := revises m sound ⟨xs, has⟩ elements
  exact revised.toShows.altered sound revised.sound

/-- The list becomes longer, with collections, and then takes its elements. -/
theorem resettle_altered_longer {filler : Handle} {missing lo : Nat} (sound : m.heap.Sound none) (has : m.heap.HasItems l s xs)
    (anchored : ∀ y ∈ l :: filler :: items, m.heap.Anchored y) :
    Altered (Own l s) m.heap ((resettle l filler items 0 missing lo).run m).2.heap := by
  have grows : Revises (some filler) l s (l :: filler :: items) (times missing (insert l lo filler)) :=
    (revises_insert s lo (by simp) (by simp)).times missing
  have revised := grows m sound ⟨xs, has⟩ anchored
  rw [resettle, times, pure_bind, run_bind]
  rcases ran : (times missing (insert l lo filler)).run m with ⟨e | ⟨⟩, m₁⟩ <;> rw [ran] at revised
  · exact revised.toShows.altered sound revised.sound
  · have stores : Revises none l s items (storeFrom l lo items) := revises_storeFrom l s lo (List.Subset.refl items)
    have elements : ∀ y ∈ items, m₁.heap.Held none y := by
      intro y member
      have held : m.heap.Held (some filler) y := anchored y (List.mem_cons_of_mem _ (List.mem_cons_of_mem _ member))
      exact (revised.held y held).2
    have revised' := stores m₁ revised.sound revised.list elements
    exact revised.toShows.altered_then revised'.toShows sound revised'.sound

/-- A construction that refills a part of the list changes nothing else. Elements are
removed or inserted, never both. -/
theorem refill_altered {surplus missing lo : Nat} (regular : m.heap.Regular) (has : m.heap.HasItems l s xs)
    (list : m.heap.Anchored l) (elements : ∀ y ∈ items, m.heap.Anchored y) (one : surplus = 0 ∨ missing = 0)
    (kept : Kept false (fun _ => True) m.heap ((refill l source items surplus missing lo).run m).2.heap) :
    Altered (Own l s) m.heap ((refill l source items surplus missing lo).run m).2.heap := by
  have sound := regular.sound
  obtain ⟨more, leave, own, ran⟩ := run_refill l source items surplus missing lo m
  have among : more ⊆ items := by
    rcases own with rfl | ⟨-, rfl⟩ <;> simp
  have sound' : (within m more).heap.Sound none :=
    (regular_within regular fun y member => (elements y (among member)).2).sound
  have has' : (within m more).heap.HasItems l s xs := hasItems_rerooted has sound _
  have wider : m.heap.roots.toList ⊆ (within m more).heap.roots.toList :=
    toList_within m more ▸ List.subset_append_left _ _
  have altered : Altered (Own l s) (within m more).heap
      ((resettle l m.heap.constants.none items surplus missing lo).run (within m more)).2.heap := by
    rcases one with rfl | rfl
    · apply resettle_altered_longer sound' has'
      intro y member
      apply Anchored.rerooted _ wider
      simp only [List.mem_cons] at member
      rcases member with rfl | rfl | member
      · exact list
      · have root : m.heap.constants.none ∈ m.heap.collectionRoots [] := by simp [collectionRoots, Constants.toList]
        exact ⟨.start root, sound.roots _ root⟩
      · exact elements y member
    · exact resettle_altered_shorter sound' has' fun y member => (elements y member).2
  -- at the end the roots are set back
  rw [ran] at kept ⊢
  generalize (resettle l m.heap.constants.none items surplus missing lo).run (within m more) = result at kept altered ⊢
  have same : leave result.2.heap.roots = m.heap.roots := kept.same_roots
  have sound'' := kept.sound
  simp only [Machine.mapRoots, same] at sound'' ⊢
  exact Altered.guarded altered sound wider sound''

/-- Storing into a slice changes nothing but the list. -/
theorem storeSlice_altered (regular : m.heap.Regular) (has : m.heap.HasItems l s xs) (rooted : m.heap.Rooted l)
    (supply : m.heap.Rooted source) (start stop : Int) :
    Altered (Own l s) m.heap ((storeSlice l start stop source).run m).2.heap := by
  have sound := regular.sound
  cases read : m.heap.sequenceItems source with
  | error e =>
    rw [storeSlice_eq, run_bind_ok (run_record has), run_bind_error (by rw [run_inspect, read])]
    exact (Glanced.refl m.heap).altered sound _
  | ok items =>
    have list : m.heap.Anchored l := ⟨rooted, has.element⟩
    have supplier : m.heap.Anchored source := ⟨supply, element_of_sequenceItems read⟩
    have elements : ∀ y ∈ items, m.heap.Anchored y := by
      intro y member
      have found := sound.found_sequenceItems read y member
      exact ⟨found.2 supply, found.1⟩
    have kept : Kept false (fun _ => True) m.heap ((storeSlice l start stop source).run m).2.heap :=
      (keeps_storeSlice l start stop source m sound ⟨list, supplier⟩).1
    rw [storeSlice_eq, run_bind_ok (run_record has), run_bind_ok (run_inspect_ok read)] at kept ⊢
    exact refill_altered regular has list elements (by omega) kept

end ListObject

/-! ### Changes to lists, one after the other -/

/-- A change to a list. -/
inductive ListChange where
  | call (update : ListCall)
  | storeSlice (start stop : Int) (source : Handle)

namespace ListChange

variable {m : Machine} {l s : Handle} {xs : List Handle}

def onHeap (l : Handle) : ListChange → HeapM Unit
  | .call update => do let _ ← update.onHeap l
  | .storeSlice start stop source => ListObject.storeSlice l start stop source

/-- The change is given live objects, and a source that the roots lead to. -/
def Supplied (h : Heap) : ListChange → Prop
  | .call update => ∀ x ∈ update.operands, h.Element x
  | .storeSlice _ _ source => h.Rooted source

theorem takes_onHeap (change : ListChange) (l : Handle) {foreign : Machine → Machine → Prop} {building : Bool} :
    Takes foreign false building (change.onHeap l) := by
  cases change with
  | call update => exact (update.takes_onHeap l).bind fun _ => takes_pure _
  | storeSlice start stop source => exact ListObject.takes_storeSlice l start stop source

/-- A change to a list changes nothing else. -/
theorem altered (change : ListChange) (regular : m.heap.Regular) (rooted : m.heap.Rooted l) (has : m.heap.HasItems l s xs)
    (supplied : change.Supplied m.heap) : Altered (Own l s) m.heap ((change.onHeap l).run m).2.heap := by
  cases change with
  | call update =>
    obtain ⟨ys, refines⟩ := update.exists_refines regular rooted has supplied
    have altered := refines.altered
    rw [onHeap, run_bind]
    rcases ran : (update.onHeap l).run m with ⟨e | a, m'⟩ <;> rw [ran] at altered <;> exact altered
  | storeSlice start stop source => exact ListObject.storeSlice_altered regular has rooted supplied start stop

end ListChange

/-- One step that is not about the list `l`: another list is changed, an object without
storage is made, or other objects become the roots. Whenever memory may be collected,
the roots lead to `l`. -/
inductive Machine.Elsewhere (l : Handle) (m : Machine) : Machine → Prop
  | change {target : Handle} {ys : List Handle} (change : ListChange) (other : target ≠ l) (kept : m.heap.Rooted l)
      (rooted : m.heap.Rooted target) (list : m.heap.listItems target = .ok ys) (supplied : change.Supplied m.heap) :
      Elsewhere l m ((change.onHeap target).run m).2
  | make (p : Payload) (kept : m.heap.Rooted l) (refs : ∀ x ∈ p.refs, m.heap.Element x) (plain : p.storages = [])
      (kind : p.tag ≠ .seglist ∧ p.tag ≠ .segment) : Elsewhere l m ((allocate p).run m).2
  | reroot (roots : RootSet) (elements : ∀ x ∈ roots.toList, m.heap.Element x) : Elsewhere l m (m.mapRoots fun _ => roots)

namespace Machine

variable {m m' : Machine} {l : Handle} {xs : List Handle}

/-- One step elsewhere. -/
theorem Elsewhere.listItems (step : Elsewhere l m m') (regular : m.heap.Regular) (contents : m.heap.listItems l = .ok xs) :
    m'.heap.Regular ∧ m'.heap.listItems l = .ok xs := by
  obtain ⟨s, has⟩ := regular.sound.hasItems_of_listItems contents
  cases step with
  | @change target ys change other kept rooted list supplied =>
    obtain ⟨u, subject⟩ := regular.sound.hasItems_of_listItems list
    have altered := change.altered regular rooted subject supplied
    have lasts := has.other subject altered regular.sound kept other
    exact ⟨regular.steps (change.takes_onHeap target m) altered.sound, lasts.listItems⟩
  | make p kept refs plain kind =>
    have count : p.count = 0 := by
      cases p <;> first | rfl | cases plain
    have keeps : Keeps false (fun _ => False) _ (allocate p) _ := keeps_allocate (fun _ => False) p kind.1 kind.2 plain count
    have alloc := (keeps m regular.sound ⟨refs, fun _ none => none.elim⟩).1
    have persists := alloc.confined.persists regular.sound.toShaped alloc.sound.toShaped
    have takes : Takes Machine.NoCalls false false (allocate p) := takes_allocate p fun never => by cases never
    exact ⟨regular.steps (takes m) alloc.sound, (has.persists regular.sound.toShaped kept persists).listItems⟩
  | reroot roots elements =>
    have regular' : { m.heap with roots := roots }.Regular :=
      ⟨regular.sound.rerooted elements, regular.balanced.congr rfl rfl rfl, regular.word⟩
    exact ⟨regular', (ListObject.hasItems_rerooted has regular.sound roots).listItems⟩

/-- Whatever is done elsewhere, a list keeps its elements. -/
theorem unmoved (regular : m.heap.Regular) (contents : m.heap.listItems l = .ok xs)
    (steps : Relation.ReflTransGen (Elsewhere l) m m') : m'.heap.listItems l = .ok xs := by
  have both : m'.heap.Regular ∧ m'.heap.listItems l = .ok xs := by
    induction steps with
    | refl => exact ⟨regular, contents⟩
    | tail _ step ih => exact step.listItems ih.1 ih.2
  exact both.2

end Machine

end ChunkHeap

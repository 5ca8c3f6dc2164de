import ChunkHeap.Proofs.Containers.Storage

/-!
# Making objects

A new object is one that nothing refers to. A container is made in steps: its
storages first, each kept by the allocations after it, then the container that
owns them.
-/

namespace ChunkHeap
set_option autoImplicit false

open HeapM

namespace Heap

variable {h g k : Heap} {x y s : Handle} {p : Payload} {pins : List Handle}

/-- No root and no live object refers to `x`. -/
def Unreferred (h : Heap) (x : Handle) : Prop :=
  x ∉ h.collectionRoots [] ∧ ∀ y p, h.find? y = some p → x ∉ p.children

theorem Unreferred.not_rooted (unreferred : h.Unreferred x) : ¬ h.Rooted x := by
  intro rooted
  cases rooted with
  | start member => exact unreferred.1 member
  | edge _ found child => exact unreferred.2 _ _ (find?_eq_some_iff.2 ⟨_, found, rfl⟩) child

/-- An empty segmented list that nothing refers to. -/
def Blank (h : Heap) (s : Handle) : Prop :=
  h.find? s = some (.seglist {}) ∧ h.Unreferred s

theorem Blank.element (blank : h.Blank s) : h.Element s :=
  ⟨_, blank.1, by simp [Payload.tag]⟩

/-- The object may be entered: what it refers to is live, and what it is to own as
storage is blank. -/
structure Placeable (p : Payload) (h : Heap) : Prop where
  refs : ∀ y ∈ p.refs, h.Element y
  list : ∀ r, p = .seglist r → r = {}
  segment : p.tag ≠ .segment
  separate : p.storages.Nodup
  blank : ∀ s ∈ p.storages, h.Blank s
  count : p.count = 0

theorem Placeable.children (placeable : Placeable p h) : ∀ y ∈ p.children, h.Element y := by
  obtain ⟨refs, list, segment, -, -, -⟩ := placeable
  cases p with
  | seglist r =>
    rw [list r rfl]
    exact fun y member => by cases member
  | segment r => exact absurd rfl segment
  | _ => exact refs

/-- An object that owns no storage. -/
theorem placeable_plain (refs : ∀ y ∈ p.refs, h.Element y) (list : p.tag ≠ .seglist) (segment : p.tag ≠ .segment)
    (plain : p.storages = []) (count : p.count = 0) : Placeable p h := by
  refine ⟨refs, ?_, segment, by simp [plain], by simp [plain], count⟩
  rintro r rfl
  exact absurd rfl list

/-- A storage that is still empty. -/
theorem placeable_storage (h : Heap) : Placeable (.seglist {}) h := by
  refine ⟨by simp [Payload.refs], ?_, by simp [Payload.tag], List.nodup_nil, by simp [Payload.storages], rfl⟩
  intro r same
  injection same with same
  exact same.symm

/-- A container for blank storages. -/
theorem placeable_container (blank : ∀ s ∈ p.storages, h.Blank s) (separate : p.storages.Nodup) (refs : p.refs = p.storages)
    (count : p.count = 0) (list : p.tag ≠ .seglist) (segment : p.tag ≠ .segment) : Placeable p h := by
  refine ⟨fun y member => (blank y (refs ▸ member)).element, ?_, segment, separate, blank, count⟩
  rintro r rfl
  exact absurd rfl list

/-- From `h` to `k` an allocation has entered `x`. -/
structure Allocated (p : Payload) (pins : List Handle) (x : Handle) (h g k : Heap) : Prop where
  swept : Swept (pins ++ p.children) h g
  entered : Entered x p g k
  before : h.Sound none
  between : g.Sound none

theorem Swept.unreferred (swept : Swept pins h g) (ok : h.Accounted) (unreferred : h.Unreferred x) : g.Unreferred x := by
  refine ⟨?_, fun y p found => unreferred.2 y p (swept.of_find? ok found)⟩
  rw [(swept.upkeep ok).collectionRoots]
  exact unreferred.1

theorem Swept.blank (swept : Swept pins h g) (ok : h.Accounted) (pinned : s ∈ pins) (blank : h.Blank s) : g.Blank s := by
  refine ⟨?_, swept.unreferred ok blank.2⟩
  rw [swept.find? ok (.start (List.mem_append_right _ pinned)), blank.1]

/-- What is to be entered passes a collection that keeps it. -/
theorem Placeable.swept (placeable : Placeable p h) (ok : h.Accounted) (swept : Swept (pins ++ p.children) h g) :
    Placeable p g :=
  { placeable with
    refs := fun y member => swept.element ok (placeable.refs y member) (.start (by
      simp [collectionRoots, refs_subset_children p member]))
    blank := fun s member => swept.blank ok (by simp [p.storages_subset_children member]) (placeable.blank s member) }

theorem Placeable.sound (placeable : Placeable p h) (sound : h.Sound none) (entered : Entered x p h g) : g.Sound none := by
  refine sound.entered entered placeable.refs placeable.list placeable.segment placeable.separate ?_ ?_
  · intro s member
    exact ⟨{}, (placeable.blank s member).1, placeable.count.symm⟩
  · intro s member y q found owned
    exact (placeable.blank s member).2.2 y q found (q.storages_subset_children owned)

namespace Allocated

variable (allocated : Allocated p pins x h g k)
include allocated

theorem here : k.find? x = some p :=
  allocated.entered.here

theorem upkeep : Upkeep h k :=
  (allocated.swept.upkeep allocated.before.accounted).trans allocated.entered.toUpkeep

theorem confined {S : Handle → Prop} : Confined S h k :=
  (allocated.swept.confined allocated.before.accounted).trans
    (allocated.swept.upkeep allocated.before.accounted).roots_subset allocated.entered.confined

theorem anchored (anchored : h.Anchored y) : k.Anchored y :=
  allocated.entered.anchored (allocated.swept.anchored allocated.before.accounted anchored)

/-- A slot that was free has no edge into it. -/
theorem unreferred (placeable : Placeable p h) : k.Unreferred x := by
  have fresh := allocated.entered.fresh
  have other : x ∉ p.children := by
    intro child
    obtain ⟨q, live, -⟩ := (placeable.swept allocated.before.accounted allocated.swept).children x child
    rw [fresh] at live
    cases live
  constructor
  · rw [allocated.entered.collectionRoots]
    intro member
    obtain ⟨q, live, -⟩ := allocated.between.roots x member
    rw [fresh] at live
    cases live
  · intro y q found
    by_cases same : y = x
    · rw [same, allocated.here] at found
      cases found
      exact other
    · intro child
      obtain ⟨r, live⟩ := allocated.between.edges ((allocated.entered.other same).symm.trans found) child
      rw [fresh] at live
      cases live


/-- A blank list that was pinned stays blank unless the new object refers to it. -/
theorem blank (pinned : s ∈ pins) (other : s ∉ p.children) (blank : h.Blank s) : s ≠ x ∧ k.Blank s := by
  obtain ⟨found, unreferred⟩ :=
    allocated.swept.blank allocated.before.accounted (List.mem_append_left p.children pinned) blank
  obtain ⟨different, found'⟩ := allocated.entered.live found
  refine ⟨different, found', ?_, fun y q live => ?_⟩
  · rw [allocated.entered.collectionRoots]
    exact unreferred.1
  · by_cases same : y = x
    · rw [same, allocated.here] at live
      cases live
      exact other
    · exact unreferred.2 y q ((allocated.entered.other same).symm.trans live)

/-- The roots do not lead to a new container, hence not to its storages. -/
theorem storage_unrooted (placeable : Placeable p h) (stored : s ∈ p.storages) : ¬ k.Rooted s := by
  have unreferred := ((placeable.swept allocated.before.accounted allocated.swept).blank s stored).2
  intro rooted
  cases rooted with
  | start member =>
    rw [allocated.entered.collectionRoots] at member
    exact unreferred.1 member
  | @edge z _ o before found child =>
    have live : k.find? z = some o.payload := find?_eq_some_iff.2 ⟨o, found, rfl⟩
    by_cases same : z = x
    · exact (allocated.unreferred placeable).not_rooted (same ▸ before)
    · exact unreferred.2 z _ ((allocated.entered.other same).symm.trans live) child

end Allocated

end Heap

/-! ### Operations that make objects -/

open Heap

variable {building : Bool} {S : Handle → Prop} {pre : Heap → Prop} {kept : Handle → Prop}

theorem HeapM.keeps_allocatePinned {post : Handle → Heap → Prop} (p : Payload) (pins : List Handle)
    (places : ∀ h, pre h → Placeable p h ∧ ∀ y ∈ pins, h.Element y)
    (holds : ∀ x h g k, pre h → Allocated p pins x h g k → post x k) :
    Keeps building S pre (allocatePinned p pins) post := by
  intro m sound start
  have ok := sound.accounted
  obtain ⟨placeable, elements⟩ := places m.heap start
  obtain ⟨g, swept, ⟨e, m', failed, -, same, -⟩ | ⟨x, m', done, entered⟩⟩ := allocatePinned_spec p pins ok
  all_goals
    have between : g.Sound none := sound.swept (fun y member =>
      (List.mem_append.1 member).elim (elements y) (placeable.children y)) swept
  · rw [failed]
    simp only [same]
    exact ⟨(swept.upkeep ok).kept between (swept.confined ok), fun _ same => by cases same⟩
  · have allocated : Allocated p pins x m.heap g m'.heap := ⟨swept, entered, sound, between⟩
    rw [done]
    refine ⟨allocated.upkeep.kept ((placeable.swept ok swept).sound between entered) allocated.confined, fun y same => ?_⟩
    cases same
    exact holds x _ _ _ start allocated

/-- An object that owns no storage. -/
theorem HeapM.keeps_allocate (kept : Handle → Prop) (p : Payload) (list : p.tag ≠ .seglist) (segment : p.tag ≠ .segment)
    (plain : p.storages = []) (count : p.count = 0) :
    Keeps building S (fun h => (∀ y ∈ p.refs, h.Element y) ∧ ∀ y, kept y → h.Anchored y) (allocate p)
      fun x h => h.find? x = some p ∧ ¬ h.Rooted x ∧ ∀ y, kept y → h.Anchored y := by
  have places : ∀ h : Heap, (∀ y ∈ p.refs, h.Element y) → Placeable p h :=
    fun h refs => placeable_plain refs list segment plain count
  refine keeps_allocatePinned p [] (fun h start => ⟨places h start.1, by simp⟩) ?_
  intro x h g k start allocated
  exact ⟨allocated.here, (allocated.unreferred (places h start.1)).not_rooted,
    fun y member => allocated.anchored (start.2 y member)⟩

/-- A storage for a container to be made, beside those there are already. -/
theorem HeapM.keeps_allocateBlank (kept : Handle → Prop) (pins : List Handle) :
    Keeps building S (fun h => (∀ s ∈ pins, h.Blank s) ∧ ∀ y, kept y → h.Anchored y) (allocatePinned (.seglist {}) pins)
      fun x h => (∀ s ∈ x :: pins, h.Blank s) ∧ x ∉ pins ∧ ∀ y, kept y → h.Anchored y := by
  refine keeps_allocatePinned _ pins (fun h start => ⟨placeable_storage h, fun y member => (start.1 y member).element⟩) ?_
  intro x h g k start allocated
  have others := fun s (member : s ∈ pins) =>
    allocated.blank member (by simp [Payload.children]) (start.1 s member)
  refine ⟨fun s member => ?_, fun member => (others x member).1 rfl, fun y member => allocated.anchored (start.2 y member)⟩
  rcases List.mem_cons.1 member with rfl | member
  · exact ⟨allocated.here, allocated.unreferred (placeable_storage h)⟩
  · exact (others s member).2

/-- A container for blank storages. -/
theorem HeapM.keeps_allocateContainer (p : Payload) (separate : p.storages.Nodup) (refs : p.refs = p.storages)
    (count : p.count = 0) (list : p.tag ≠ .seglist) (segment : p.tag ≠ .segment) :
    Keeps building S (fun h => (∀ s ∈ p.storages, h.Blank s) ∧ ∀ y, kept y → h.Anchored y) (allocate p)
      fun x h => h.find? x = some p ∧ (∀ s ∈ x :: p.storages, ¬ h.Rooted s) ∧ ∀ y, kept y → h.Anchored y := by
  have places : ∀ h : Heap, (∀ s ∈ p.storages, h.Blank s) → Placeable p h :=
    fun h blank => placeable_container blank separate refs count list segment
  refine keeps_allocatePinned p [] (fun h start => ⟨places h start.1, by simp⟩) ?_
  intro x h g k start allocated
  refine ⟨allocated.here, fun s member => ?_, fun y member => allocated.anchored (start.2 y member)⟩
  rcases List.mem_cons.1 member with rfl | stored
  · exact (allocated.unreferred (places h start.1)).not_rooted
  · exact allocated.storage_unrooted (places h start.1) stored

end ChunkHeap

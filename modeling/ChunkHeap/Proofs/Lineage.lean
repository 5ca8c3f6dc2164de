import ChunkHeap.Proofs.Chain.Layout

/-!
# Lineage

A tuple is made of objects that are there already. So is a class, with a tuple of
bases, and an instance takes over the bases of its class. None of this changes later,
so an object is younger than those it descends from. The slots do not show this, since
they are used again; but nothing can enter a slot to which a live object still refers.

`Heap.Lineal` is the invariant that comes of it: no object descends from itself, and
every class has a table and a tuple of live bases. It does not take a heap in order
otherwise, so it can be followed step by step through the inside of an operation.
-/

namespace ChunkHeap
set_option autoImplicit false

/-- Objects of this kind descend from others. -/
def Tag.descends : Tag → Bool
  | .tuple | .cls | .inst => true
  | _ => false

/-- What an object immediately descends from: a class or an instance from the tuple of
its bases, a tuple from its elements. -/
def Payload.parents : Payload → List Handle
  | .tuple items => items
  | .cls r | .inst r => [r.bases]
  | _ => []

theorem Payload.parents_of_tag {p : Payload} (alone : p.tag.descends = false) : p.parents = [] := by
  cases p with
  | tuple | cls | inst => cases alone
  | _ => rfl

namespace Heap

variable {h g : Heap} {x y : Handle} {p q : Payload} {pins : List Handle}

/-- The live object `x` immediately descends from `y`. -/
def ParentOf (h : Heap) (y x : Handle) : Prop :=
  ∃ p, h.find? x = some p ∧ y ∈ p.parents

/-- What an object descends from is there, and of the right kind. -/
def Pedigree (h : Heap) : Payload → Prop
  | .tuple items => ∀ y ∈ items, h.Element y
  | .cls r | .inst r => (∃ t, h.find? r.attrs = some (.dict t)) ∧ ∃ items, h.find? r.bases = some (.tuple items)
  | _ => True

/-- No object descends from itself, and what objects descend from is there. -/
structure Lineal (h : Heap) : Prop where
  accounted : h.Accounted
  founded : WellFounded h.ParentOf
  pedigrees : ∀ x p, h.find? x = some p → h.Pedigree p

theorem pedigree_of_tag (alone : p.tag.descends = false) : h.Pedigree p := by
  cases p with
  | tuple | cls | inst => cases alone
  | _ => trivial

theorem Pedigree.element (pedigree : h.Pedigree p) (parent : y ∈ p.parents) : h.Element y := by
  cases p with
  | tuple items => exact pedigree y parent
  | cls r | inst r =>
    obtain ⟨-, items, found⟩ := pedigree
    rw [List.mem_singleton.1 parent]
    exact ⟨_, found, by simp [Payload.tag]⟩
  | _ => cases parent

/-- A pedigree lasts as long as the objects in it stay, with their kinds. -/
theorem Pedigree.lasts (pedigree : h.Pedigree p)
    (kept : ∀ y ∈ p.children, ∀ q, h.find? y = some q → q.tag ≠ .segment → ∃ q', g.find? y = some q' ∧ q'.tag = q.tag) :
    g.Pedigree p := by
  cases p with
  | tuple items =>
    intro y member
    obtain ⟨q, found, other⟩ := pedigree y member
    obtain ⟨q', found', tag⟩ := kept y member q found other
    exact ⟨q', found', tag ▸ other⟩
  | cls r | inst r =>
    obtain ⟨⟨t, table⟩, items, bases⟩ := pedigree
    obtain ⟨q, table', tag⟩ := kept r.attrs (by simp [Payload.children]) _ table (by simp [Payload.tag])
    obtain ⟨q', bases', tag'⟩ := kept r.bases (by simp [Payload.children]) _ bases (by simp [Payload.tag])
    cases q <;> cases tag
    cases q' <;> cases tag'
    exact ⟨⟨_, table'⟩, _, bases'⟩
  | _ => trivial

/-- Objects stay, with their kinds, when one is written to. -/
theorem kept_setPayload (found : h.find? x = some p) (tag : q.tag = p.tag) {r : Payload} (there : h.find? y = some r) :
    ∃ r', (h.setPayload x q).find? y = some r' ∧ r'.tag = r.tag := by
  by_cases same : y = x
  · subst same
    rw [found] at there
    cases there
    exact ⟨q, find?_setPayload_self found q, tag⟩
  · exact ⟨r, (find?_setPayload_other same q).trans there, rfl⟩

namespace Lineal

variable (lineal : h.Lineal)
include lineal

theorem parent_element (parent : h.ParentOf y x) : h.Element y := by
  obtain ⟨p, found, member⟩ := parent
  exact (lineal.pedigrees x p found).element member

/-- No new descent, and pedigrees that last. -/
theorem of_old (accounted : g.Accounted)
    (old : ∀ x p, g.find? x = some p → p.tag.descends = true → h.find? x = some p)
    (kept : ∀ x p, g.find? x = some p → ∀ y ∈ p.children, ∀ q, h.find? y = some q → q.tag ≠ .segment →
      ∃ q', g.find? y = some q' ∧ q'.tag = q.tag) : g.Lineal where
  accounted := accounted
  founded := by
    refine Subrelation.wf ?_ lineal.founded
    rintro y x ⟨p, found, member⟩
    cases kind : p.tag.descends with
    | true => exact ⟨p, old x p found kind, member⟩
    | false =>
      rw [Payload.parents_of_tag kind] at member
      cases member
  pedigrees x p found := by
    cases kind : p.tag.descends with
    | true => exact (lineal.pedigrees x p (old x p found kind)).lasts (kept x p found)
    | false => exact pedigree_of_tag kind

/-- The roots do not matter. -/
theorem rerooted (roots : RootSet) : { h with roots := roots }.Lineal :=
  lineal.of_old ⟨lineal.accounted.arena, lineal.accounted.bytes⟩ (fun _ _ found _ => found)
    fun _ _ _ _ _ q found _ => ⟨q, found, rfl⟩

/-- A collection keeps whole families. -/
theorem swept (swept : Swept pins h g) : g.Lineal := by
  have ok := lineal.accounted
  refine lineal.of_old ((swept.upkeep ok).accounted ok) (fun x p found _ => swept.of_find? ok found) ?_
  intro x p found y child q there _
  rcases swept with rfl | rfl
  · exact ⟨q, there, rfl⟩
  · obtain ⟨before, reached⟩ := (find?_collectWith ok.arena).1 found
    exact ⟨q, (find?_collectWith ok.arena).2 ⟨there, reaches_edge reached before child⟩, rfl⟩

/-- Writing to an object that does not descend from others. -/
theorem written (found : h.find? x = some p) (tag : q.tag = p.tag) (alone : p.tag.descends = false) :
    (h.setPayload x q).Lineal := by
  refine lineal.of_old (lineal.accounted.setPayload x q) (fun y r there kind => ?_) fun _ _ _ y _ r there _ =>
    kept_setPayload found tag there
  rw [find?_setPayload] at there
  split at there
  · rename_i same
    rw [← same, found] at there
    cases there
    rw [tag, alone] at kind
    cases kind
  · exact there

/-- Another table for an instance. -/
theorem reattributed {r : ClassRecord} {attrs : Handle} {t : DictRecord} (found : h.find? x = some (.inst r))
    (table : h.find? attrs = some (.dict t)) : (h.setPayload x (.inst { r with attrs := attrs })).Lineal := by
  have here : ∀ z q, (h.setPayload x (.inst { r with attrs := attrs })).find? z = some q →
      z = x ∧ q = .inst { r with attrs := attrs } ∨ h.find? z = some q := by
    intro z q there
    rw [find?_setPayload] at there
    split at there
    · rename_i same
      rw [← same, found] at there
      cases there
      exact .inl ⟨same.symm, rfl⟩
    · exact .inr there
  refine ⟨lineal.accounted.setPayload x _, Subrelation.wf ?_ lineal.founded, fun z q there => ?_⟩
  · rintro y z ⟨q, there, member⟩
    rcases here z q there with ⟨rfl, rfl⟩ | before
    · exact ⟨_, found, member⟩
    · exact ⟨q, before, member⟩
  · have before : h.Pedigree q := by
      rcases here z q there with ⟨-, rfl⟩ | before
      · exact ⟨⟨t, table⟩, (lineal.pedigrees x _ found).2⟩
      · exact lineal.pedigrees z q before
    exact before.lasts fun y _ q' live _ => kept_setPayload (q := .inst { r with attrs := attrs }) found rfl live

/-- A segment goes; no object descends from one. -/
theorem released {r : SegmentRecord} (accounted : g.Accounted) (segment : h.find? x = some (.segment r))
    (view : ∀ y, g.find? y = if x = y then none else h.find? y) : g.Lineal := by
  refine lineal.of_old accounted (fun y p found _ => ?_) fun _ _ _ y _ q found other => ⟨q, ?_, rfl⟩
  · rw [view] at found
    split at found
    · cases found
    · exact found
  · rw [view, if_neg ?_, found]
    rintro rfl
    rw [segment] at found
    cases found
    exact other rfl

/-- A new object descends from objects that are there, and nothing from it. -/
theorem entered (entered : Entered x p h g) (pedigree : h.Pedigree p) : g.Lineal where
  accounted := entered.accounted lineal.accounted
  founded := by
    have new : ∀ z, ¬ g.ParentOf x z := by
      rintro z ⟨q, found, member⟩
      have element : h.Element x := by
        by_cases same : z = x
        · subst same
          rw [entered.here] at found
          cases found
          exact pedigree.element member
        · rw [entered.other same] at found
          exact lineal.parent_element ⟨q, found, member⟩
      obtain ⟨r, there, -⟩ := element
      rw [entered.fresh] at there
      cases there
    -- the others have the ancestors they had, and the new object has only such parents
    have others : ∀ z, z ≠ x → Acc g.ParentOf z := by
      intro z
      induction z using lineal.founded.induction with
      | _ z ih =>
        refine fun other => .intro z fun y parent => ?_
        have different : y ≠ x := fun same => new z (same ▸ parent)
        obtain ⟨q, found, member⟩ := parent
        exact ih y ⟨q, (entered.other other).symm.trans found, member⟩ different
    refine ⟨fun z => ?_⟩
    by_cases same : z = x
    · exact .intro z fun y parent => others y fun same' => new z (same' ▸ parent)
    · exact others z same
  pedigrees z q found := by
    have before : h.Pedigree q := by
      by_cases same : z = x
      · subst same
        rw [entered.here] at found
        cases found
        exact pedigree
      · exact lineal.pedigrees z q ((entered.other same).symm.trans found)
    exact before.lasts fun y _ q there _ => ⟨q, (entered.live there).2, rfl⟩

end Lineal

/-- An allocation, with whatever outcome, of an object that descends from live ones. -/
theorem Lineal.allocated {m : Machine} (lineal : m.heap.Lineal) (pedigree : m.heap.Pedigree p) :
    ((HeapM.allocatePinned p pins).run m).2.heap.Lineal := by
  have ok := lineal.accounted
  obtain ⟨g, swept, ⟨e, m', failed, -, same, -⟩ | ⟨x, m', done, entered⟩⟩ := HeapM.allocatePinned_spec p pins ok
  · rw [failed]
    exact same ▸ lineal.swept swept
  · rw [done]
    refine (lineal.swept swept).entered entered (pedigree.lasts fun y child q there _ => ⟨q, ?_, rfl⟩)
    rw [swept.find? ok (.start ?_), there]
    simp [collectionRoots, child]

end Heap

end ChunkHeap

import ChunkHeap.Proofs.Comparison
import ChunkHeap.Proofs.Containers.Creation

/-!
# Regions

What an operation still needs while others run is seldom one object. It is a table
with all its keys and values, or everything that the roots lead to: a set of objects
that refer only to each other (`Heap.Region`). As long as each of them shows what it
showed (`Heap.Persists`), the set as a whole is intact, its objects compare as they
did, and the roots lead to those that they led to.

A collection spares the regions that it starts from, and an allocation gives out a
slot outside them.
-/

namespace ChunkHeap
set_option autoImplicit false

open HeapM

namespace Heap

variable {h g k : Heap} {x y a b : Handle} {p : Payload} {K L : Handle → Prop} {pins : List Handle}

/-- The objects of `K` show something, and refer to objects of `K` only. -/
def Region (h : Heap) (K : Handle → Prop) : Prop :=
  ∀ x, K x → ∃ content, h.content? x = some content ∧ ∀ y ∈ content.refs, K y

/-- The objects of `K` show the same in both heaps. -/
def Persists (K : Handle → Prop) (h g : Heap) : Prop :=
  ∀ x, K x → g.content? x = h.content? x

/-- The roots or `pins` lead to the object, and it is no segment. -/
def Within (h : Heap) (pins : List Handle) (x : Handle) : Prop :=
  h.arena.Reaches (h.collectionRoots pins) x ∧ h.Element x

theorem Anchored.within (anchored : h.Anchored x) (pins : List Handle) : h.Within pins x :=
  ⟨anchored.1.collected pins, anchored.2⟩

theorem Shaped.region_within (shaped : h.Shaped) (pins : List Handle) : h.Region (h.Within pins) := by
  intro x ⟨reached, element⟩
  obtain ⟨content, shown⟩ := shaped.element_iff.1 element
  refine ⟨content, shown, fun y ref => ?_⟩
  constructor
  · exact shaped.reaches_ref reached shown ref
  · exact shaped.element_of_ref shown ref

namespace Persists

theorem trans (first : Persists K h g) (second : Persists K g k) : Persists K h k :=
  fun x inside => (second x inside).trans (first x inside)

theorem mono (persists : Persists L h g) (narrower : ∀ x, K x → L x) : Persists K h g :=
  fun x inside => persists x (narrower x inside)

/-- An object of the region that is no segmented list holds the same. -/
theorem find? (persists : Persists K h g) (inside : K x) (found : h.find? x = some p) (list : p.tag ≠ .seglist)
    (segment : p.tag ≠ .segment) : g.find? x = some p := by
  have shown := (persists x inside).trans (content?_of_record found list segment)
  exact (find?_of_record shown).1

/-- An object of the region is of the kind it was. -/
theorem alike (persists : Persists K h g) (shaped : h.Shaped) (inside : K x) (found : h.find? x = some p)
    (segment : p.tag ≠ .segment) : ∃ q, g.find? x = some q ∧ q.tag = p.tag ∧ (p.tag ≠ .seglist → q = p) := by
  by_cases list : p.tag = .seglist
  · cases p with
    | seglist r =>
      obtain ⟨c, chained⟩ := shaped.chains x r found
      have shown := (persists x inside).trans (Carries.content? ⟨r, found, chained⟩)
      obtain ⟨⟨r', found'⟩, -⟩ := segListItems_of_items shown
      exact ⟨_, found', rfl, fun other => absurd rfl other⟩
    | _ => cases list
  · exact ⟨p, persists.find? inside found list segment, rfl, fun _ => rfl⟩

end Persists

theorem Glanced.persists (glanced : Glanced h g) (sound : h.Sound none) (K : Handle → Prop) : Persists K h g :=
  fun x _ => glanced.content? sound x

namespace Region

theorem persists (region : h.Region K) (persists : Persists K h g) : g.Region K := by
  intro x inside
  obtain ⟨content, shown, refs⟩ := region x inside
  exact ⟨content, (persists x inside).trans shown, refs⟩

theorem element (region : h.Region K) (shaped : h.Shaped) (inside : K x) : h.Element x := by
  obtain ⟨content, shown, -⟩ := region x inside
  exact shaped.element_iff.2 ⟨content, shown⟩

/-- What a comparison of an object of the region goes into belongs to the region. -/
theorem facet_items (region : h.Region K) (sound : h.Sound none) (inside : K x) (found : h.find? x = some p)
    (member : y ∈ (h.facet p).items) : K y := by
  obtain ⟨content, shown, refs⟩ := region x inside
  cases p with
  | tuple xs =>
    rw [content?_of_record found (by simp [Payload.tag]) (by simp [Payload.tag])] at shown
    cases shown
    exact refs y member
  | list r =>
    rw [content?_of_record found (by simp [Payload.tag]) (by simp [Payload.tag])] at shown
    cases shown
    obtain ⟨xs, there, -⟩ := sound.list_items found
    obtain ⟨content, shown, refs'⟩ := region r.storage (refs _ (List.mem_singleton_self _))
    rw [there] at shown
    cases shown
    rw [facet, (segListItems_of_items there).2] at member
    exact refs' y member
  | _ => cases member

/-- Objects of a region that persists compare as before. -/
theorem compare (region : h.Region K) (persists : Persists K h g) (sound : h.Sound none) (sound' : g.Sound none)
    (left : K a) (right : K b) : g.compare a b = h.compare a b := by
  have comparable : Comparable (fun x y => x = y ∧ K x) g h := by
    constructor
    · rintro x y x' y' ⟨rfl, -⟩ ⟨rfl, -⟩
      exact Iff.rfl
    · rintro x y ⟨rfl, inside⟩
      obtain ⟨p, found, tag⟩ := region.element sound.toShaped inside
      have storage : ∀ r content, p = .list r → h.content? r.storage = some content → g.content? r.storage = some content := by
        rintro r content rfl shown
        obtain ⟨_, list, refs⟩ := region x inside
        rw [content?_of_record found (by simp [Payload.tag]) (by simp [Payload.tag])] at list
        cases list
        exact (persists r.storage (refs _ (List.mem_singleton_self _))).trans shown
      obtain ⟨q, found', alike⟩ := alike_of_content? (R := fun x y => x = y ∧ K x) found tag
        (fun content shown => (persists x inside).trans shown) storage sound
        fun y member _ => ⟨rfl, region.facet_items sound inside found member⟩
      exact ⟨q, p, found', found, alike⟩
  exact comparable.compare sound' sound ⟨rfl, left⟩ ⟨rfl, right⟩

end Region

/-- If what the roots and `pins` led to persists, and the roots now lead to where that
started, they lead to all of it. -/
theorem Persists.anchored (persists : Persists (h.Within pins) h g) (sound : h.Sound none) (shaped : g.Shaped)
    (elements : ∀ x ∈ pins, h.Element x) (starts : ∀ x ∈ h.collectionRoots pins, g.Rooted x) (within : h.Within pins x) :
    g.Anchored x := by
  obtain ⟨reached, element⟩ := id within
  have apart : h.Unsegmented (h.collectionRoots pins) := by
    intro y member
    rcases List.mem_append.1 member with root | pin
    · exact sound.unsegmented y (List.mem_append_left _ root)
    · exact (elements y pin).not_segment
  -- along a path, within the region
  have both : g.Rooted x ∧ h.Within pins x := by
    refine sound.toShaped.reaches_induction (P := fun y => g.Rooted y ∧ h.Within pins y) apart ?_ ?_ reached element
    · intro y member
      refine ⟨starts y member, .start member, ?_⟩
      rcases List.mem_append.1 member with root | pin
      · exact sound.roots y (List.mem_append_left _ root)
      · exact elements y pin
    · rintro y content ⟨rooted, inside⟩ shown z ref
      have shown' := (persists y inside).trans shown
      refine ⟨shaped.reaches_ref rooted shown' ref, ?_, ?_⟩
      · exact sound.toShaped.reaches_ref inside.1 shown ref
      · exact sound.toShaped.element_of_ref shown ref
  obtain ⟨content, shown⟩ := sound.toShaped.element_iff.1 element
  exact ⟨both.1, shaped.element_iff.2 ⟨content, (persists x within).trans shown⟩⟩

/-- With the same roots and more, the roots lead to all that they led to, if it persists. -/
theorem Persists.rooted (persists : Persists h.Anchored h g) (sound : h.Sound none) (shaped : g.Shaped)
    (roots : h.collectionRoots [] ⊆ g.collectionRoots []) (anchored : h.Anchored x) : g.Anchored x := by
  have starts : ∀ y ∈ h.collectionRoots [], g.Rooted y := fun y root => .start (roots root)
  exact Persists.anchored persists sound shaped (fun y member => by cases member) starts anchored

/-- Whatever is kept from writing persists. -/
theorem Confined.persists (confined : Confined (fun _ => False) h g) (shaped : h.Shaped) (shaped' : g.Shaped) :
    Persists h.Anchored h g := by
  have same : ∀ y p, h.Rooted y → h.find? y = some p → ∃ q, g.find? y = some q ∧ q.still = p.still :=
    fun y p rooted => confined y p (rooted.around fun _ none => none.elim) id
  rintro x ⟨rooted, p, found, -⟩
  obtain ⟨q, found', still⟩ := same x p rooted found
  have alike : (g.find? x).map Payload.still = (h.find? x).map Payload.still := by
    rw [found, found', Option.map_some, Option.map_some, still]
  refine content?_congr alike fun r list => ?_
  obtain ⟨c, chained⟩ := shaped.chains x r list
  refine ⟨c, ⟨r, list, chained⟩, shaped'.carries_still ⟨r, list, chained⟩ alike fun s member => ?_⟩
  obtain ⟨t, segment⟩ := chained.linked.segment member
  obtain ⟨q', segment', still'⟩ := same s _ ((Carries.reaches ⟨r, list, chained⟩ rooted).1 s member) segment
  rw [segment, segment', Payload.eq_of_still still' (by simp [Payload.tag])]

/-! ### Allocations -/

/-- An allocation keeps what the roots and the new object lead to, in other slots. -/
theorem Entered.persists (entered : Entered x p g k) (swept : Swept p.children h g) (sound : h.Sound none)
    (between : g.Sound none) (list : p.tag ≠ .seglist) (segment : p.tag ≠ .segment) :
    Persists (h.Within p.children) h k ∧ ¬ h.Within p.children x := by
  have updated := entered.content? between.toShaped segment (.inl ⟨rfl, list⟩)
  have fresh : ¬ h.Within p.children x := by
    rintro ⟨reached, element⟩
    obtain ⟨q, found, -⟩ := element
    rw [← swept.find? sound.accounted reached, entered.fresh] at found
    cases found
  refine ⟨fun y within => ?_, fresh⟩
  have other : y ≠ x := by
    rintro rfl
    exact fresh within
  rw [updated, Function.update_of_ne other, swept.content? sound.toShaped within.1]

end Heap

open Heap

/-- How the allocation of an object ends that owns no storage. -/
theorem HeapM.allocate_outcome {m : Machine} (p : Payload) (sound : m.heap.Sound none) (refs : ∀ y ∈ p.refs, m.heap.Element y)
    (list : p.tag ≠ .seglist) (segment : p.tag ≠ .segment) (plain : p.storages = []) (count : p.count = 0) :
    (∃ e m', (allocate p).run m = (.error e, m') ∧ e.kind = .memory) ∨
      ∃ x m' g, (allocate p).run m = (.ok x, m') ∧ m'.heap.Sound none ∧ g.Sound none ∧ Swept p.children m.heap g ∧
        Entered x p g m'.heap := by
  have keeps : Keeps false (fun _ => False) _ (allocate p) _ := keeps_allocate (fun _ => False) p list segment plain count
  have kept := (keeps m sound ⟨refs, fun _ none => none.elim⟩).1
  obtain ⟨g, swept, outcome⟩ := allocatePinned_spec (m := m) p [] sound.accounted
  rcases outcome with ⟨e, m', failed, memory, -⟩ | ⟨x, m', made, entered⟩
  · exact .inl ⟨e, m', failed, memory⟩
  · have ran : (allocate p).run m = (.ok x, m') := made
    rw [ran] at kept
    have placeable : Placeable p m.heap := placeable_plain refs list segment plain count
    exact .inr ⟨x, m', g, ran, kept.sound, sound.swept placeable.children swept, swept, entered⟩

end ChunkHeap

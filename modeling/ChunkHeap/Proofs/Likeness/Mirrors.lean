import ChunkHeap.Proofs.Containers.Entries

/-!
# Heaps that mirror each other

Which slot an object gets depends on what was collected before. What does not depend
on it is the graph of the objects: a `Pairing` gives objects of one heap partners in
another, and `Pairing.Mirrors` says that partners show the same, up to partners, and
that the two heaps have the same roots. Whatever the roots of one heap lead to then
has its partner among what the roots of the other lead to (`Mirrors.rooted`,
`Mirrors.exists_of_rooted`).

Two heaps that mirror each other still do after a change of both that amounts to the
same (`Mirrors.altered`), also when each has lost other objects on the way, and
after a new object has been entered in both (`Mirrors.entered`).
-/

namespace ChunkHeap
set_option autoImplicit false

/-! ### Other names -/

namespace Payload

/-- The payload with every handle replaced. -/
def map (f : Handle → Handle) : Payload → Payload
  | none => none
  | int v => int v
  | str s => str s
  | tuple xs => tuple (xs.map f)
  | list r => list ⟨r.length, f r.storage⟩
  | dict r => dict ⟨r.length, f r.keys, f r.vals⟩
  | function r => function ⟨f r.name, r.body⟩
  | cls r => cls ⟨f r.name, f r.attrs, f r.bases⟩
  | inst r => inst ⟨f r.name, f r.attrs, f r.bases⟩
  | method r => method ⟨f r.func, f r.receiver⟩
  | slice r => slice ⟨r.start.map f, r.stop.map f, r.step.map f⟩
  | seglist r => seglist ⟨r.head.map f, r.tail.map f, r.length, r.cursor.map fun e => (e.1, f e.2)⟩
  | segment r => segment ⟨r.items.map f, r.next.map f⟩

variable {f f' : Handle → Handle} {p : Payload}

@[simp] theorem tag_map (f : Handle → Handle) (p : Payload) : (p.map f).tag = p.tag := by
  cases p <;> rfl

@[simp] theorem refs_map (f : Handle → Handle) (p : Payload) : (p.map f).refs = p.refs.map f := by
  cases p with
  | slice r => cases r with | mk a b c => cases a <;> cases b <;> cases c <;> rfl
  | _ => rfl

@[simp] theorem storages_map (f : Handle → Handle) (p : Payload) : (p.map f).storages = p.storages.map f := by
  cases p <;> rfl

@[simp] theorem count_map (f : Handle → Handle) (p : Payload) : (p.map f).count = p.count := by
  cases p <;> rfl

theorem mem_refs_slice {r : SliceRecord} {x : Handle} :
    x ∈ (slice r).refs ↔ x ∈ r.start ∨ x ∈ r.stop ∨ x ∈ r.step := by
  simp [refs, children]

/-- Only what a record refers to matters. -/
theorem map_congr (same : ∀ x ∈ p.refs, f x = f' x) (list : p.tag ≠ .seglist) (segment : p.tag ≠ .segment) :
    p.map f = p.map f' := by
  cases p with
  | none | int | str => rfl
  | tuple xs => exact congrArg tuple (List.map_congr_left same)
  | slice r =>
    have start : r.start.map f = r.start.map f' :=
      Option.map_congr fun x bound => same x (mem_refs_slice.2 (.inl bound))
    have stop : r.stop.map f = r.stop.map f' :=
      Option.map_congr fun x bound => same x (mem_refs_slice.2 (.inr (.inl bound)))
    have step : r.step.map f = r.step.map f' :=
      Option.map_congr fun x bound => same x (mem_refs_slice.2 (.inr (.inr bound)))
    simp only [map, start, stop, step]
  | list | dict | function | cls | inst | method =>
    simp only [refs, children, List.forall_mem_cons] at same
    simp only [map, same]
  | seglist => exact absurd rfl list
  | segment => exact absurd rfl segment

end Payload

namespace Content

/-- The content with every handle replaced. -/
def map (f : Handle → Handle) : Content → Content
  | record p => record (p.map f)
  | items xs => items (xs.map f)

@[simp] theorem refs_map (f : Handle → Handle) (content : Content) : (content.map f).refs = content.refs.map f := by
  cases content with
  | record p => exact p.refs_map f
  | items xs => rfl

end Content

/-! ### What a new object shows -/

namespace Payload

variable {p : Payload}

/-- What an object shows when it has just been made. -/
def shown : Payload → Content
  | .seglist _ => .items []
  | p => .record p

theorem shown_cases (list : ∀ r, p = .seglist r → r = {}) :
    p.shown = .record p ∧ p.tag ≠ .seglist ∨ p.shown = .items [] ∧ p = .seglist {} := by
  cases p with
  | seglist r =>
    rw [list r rfl]
    exact .inr ⟨rfl, rfl⟩
  | _ => exact .inl ⟨rfl, by simp [Payload.tag]⟩

theorem shown_map (f : Handle → Handle) (p : Payload) : (p.map f).shown = p.shown.map f := by
  cases p <;> rfl

theorem refs_shown (segment : p.tag ≠ .segment) : p.shown.refs = p.refs := by
  cases p with
  | segment => exact absurd rfl segment
  | _ => rfl

end Payload

/-- The roots with every handle replaced. -/
def RootSet.map (f : Handle → Handle) (r : RootSet) : RootSet :=
  { r with globals := r.globals.map f, stack := r.stack.map f, inFlight := r.inFlight.map f }

theorem RootSet.toList_map (f : Handle → Handle) (r : RootSet) : (r.map f).toList = r.toList.map f := by
  simp [RootSet.toList, RootSet.map, Option.toList_map]

/-- Only the roots themselves matter. -/
theorem RootSet.map_congr {f f' : Handle → Handle} {r : RootSet} (same : ∀ x ∈ r.toList, f x = f' x) : r.map f = r.map f' := by
  have globals : r.globals.map f = r.globals.map f' := by
    cases root : r.globals with
    | none => rfl
    | some x => exact congrArg some (same x (by simp [RootSet.toList, root]))
  have stack : r.stack.map f = r.stack.map f' :=
    List.map_congr_left fun x member => same x (by simp [RootSet.toList, member])
  have inFlight : r.inFlight.map f = r.inFlight.map f' :=
    List.map_congr_left fun x member => same x (by simp [RootSet.toList, member])
  simp only [RootSet.map, globals, stack, inFlight]

/-- The constants with every handle replaced. -/
def Constants.map (f : Handle → Handle) (c : Constants) : Constants :=
  ⟨f c.none, f c.minusOne, f c.zero, f c.one⟩

theorem Constants.map_congr {f f' : Handle → Handle} {c : Constants} (same : ∀ x ∈ c.toList, f x = f' x) :
    c.map f = c.map f' := by
  simp only [Constants.toList, List.forall_mem_cons] at same
  simp only [Constants.map, same]

open Heap

/-- Only what an object refers to matters. -/
theorem Heap.content?_map_congr {f f' : Handle → Handle} {h : Heap} {x : Handle} {content : Content}
    (shown : h.content? x = some content) (same : ∀ y ∈ content.refs, f y = f' y) : content.map f = content.map f' := by
  cases content with
  | record p =>
    obtain ⟨-, list, segment⟩ := find?_of_record shown
    exact congrArg Content.record (Payload.map_congr same list segment)
  | items xs => exact congrArg Content.items (List.map_congr_left same)

/-! ### Partners -/

/-- Partners, in another heap, of the objects that are covered. -/
structure Pairing where
  covers : Handle → Prop
  partner : Handle → Handle

namespace Pairing

variable {φ : Pairing} {h g h' g' : Heap} {x y : Handle} {p : Payload} {xs : List Handle} {content : Content}
  {S T : Handle → Prop}

/-- The heap `g` mirrors `h`: partners show the same, and so do the roots. No two
objects have the same partner. -/
structure Mirrors (φ : Pairing) (h g : Heap) : Prop where
  sound : h.Sound none
  sound' : g.Sound none
  injective : ∀ x y, φ.covers x → φ.covers y → φ.partner x = φ.partner y → x = y
  shown : ∀ x, φ.covers x → ∃ content, h.content? x = some content ∧
    g.content? (φ.partner x) = some (content.map φ.partner) ∧ ∀ y ∈ content.refs, φ.covers y
  roots : g.roots = h.roots.map φ.partner
  constants : g.constants = h.constants.map φ.partner
  covered : ∀ x ∈ h.collectionRoots [], φ.covers x

namespace Mirrors

theorem content? (mirrors : φ.Mirrors h g) (covered : φ.covers x) (shown : h.content? x = some content) :
    g.content? (φ.partner x) = some (content.map φ.partner) ∧ ∀ y ∈ content.refs, φ.covers y := by
  obtain ⟨other, here, there⟩ := mirrors.shown x covered
  rw [shown] at here
  cases here
  exact there

theorem element (mirrors : φ.Mirrors h g) (covered : φ.covers x) : h.Element x ∧ g.Element (φ.partner x) := by
  obtain ⟨content, here, there, -⟩ := mirrors.shown x covered
  exact ⟨mirrors.sound.element_iff.2 ⟨_, here⟩, mirrors.sound'.element_iff.2 ⟨_, there⟩⟩

theorem collectionRoots (mirrors : φ.Mirrors h g) : g.collectionRoots [] = (h.collectionRoots []).map φ.partner := by
  simp only [Heap.collectionRoots, mirrors.roots, mirrors.constants, RootSet.toList_map, List.map_append]
  rfl

/-- What the roots lead to is covered, and the other roots lead to its partner. -/
theorem rooted (mirrors : φ.Mirrors h g) (anchored : h.Anchored x) : φ.covers x ∧ g.Rooted (φ.partner x) := by
  refine mirrors.sound.toShaped.reaches_induction mirrors.sound.unsegmented
    (P := fun x => φ.covers x ∧ g.Rooted (φ.partner x)) ?_ ?_ anchored.1 anchored.2
  · intro y root
    refine ⟨mirrors.covered y root, .start ?_⟩
    rw [mirrors.collectionRoots]
    exact List.mem_map_of_mem root
  · intro y content ⟨covered, rooted⟩ shown z ref
    obtain ⟨there, refs⟩ := mirrors.content? covered shown
    refine ⟨refs z ref, mirrors.sound'.toShaped.reaches_ref rooted there ?_⟩
    rw [Content.refs_map]
    exact List.mem_map_of_mem ref

/-- What the other roots lead to is a partner of what the roots lead to. -/
theorem exists_of_rooted (mirrors : φ.Mirrors h g) (anchored : g.Anchored y) :
    ∃ x, φ.covers x ∧ h.Rooted x ∧ φ.partner x = y := by
  refine mirrors.sound'.toShaped.reaches_induction mirrors.sound'.unsegmented
    (P := fun y => ∃ x, φ.covers x ∧ h.Rooted x ∧ φ.partner x = y) ?_ ?_ anchored.1 anchored.2
  · intro y root
    rw [mirrors.collectionRoots] at root
    obtain ⟨x, member, rfl⟩ := List.mem_map.1 root
    exact ⟨x, mirrors.covered x member, .start member, rfl⟩
  · rintro _ content ⟨x, covered, rooted, rfl⟩ shown z ref
    obtain ⟨here, shows, there, refs⟩ := mirrors.shown x covered
    rw [shown] at there
    cases there
    rw [Content.refs_map] at ref
    obtain ⟨y, member, rfl⟩ := List.mem_map.1 ref
    exact ⟨y, refs y member, mirrors.sound.toShaped.reaches_ref rooted shows member, rfl⟩

end Mirrors

/-! ### Changes of both heaps -/

/-- The pairing of what is left in both heaps. -/
def within (φ : Pairing) (h g : Heap) : Pairing where
  covers x := φ.covers x ∧ h.Element x ∧ g.Element (φ.partner x)
  partner := φ.partner

/-- The same change of both heaps leaves mirrors. -/
theorem Mirrors.altered (mirrors : φ.Mirrors h g) (left : Altered S h h') (right : Altered T g g')
    (paired : ∀ x, φ.covers x → (S x ↔ T (φ.partner x)))
    (changed : ∀ x, φ.covers x → S x → ∃ content, h'.content? x = some content ∧
      g'.content? (φ.partner x) = some (content.map φ.partner) ∧ ∀ y ∈ content.refs, φ.covers y) :
    (φ.within h' g').Mirrors h' g' := by
  have roots : g'.roots = h'.roots.map φ.partner := by rw [right.roots, mirrors.roots, left.roots]
  have constants : g'.constants = h'.constants.map φ.partner := by rw [right.constants, mirrors.constants, left.constants]
  refine ⟨left.sound, right.sound, fun x y here there => mirrors.injective x y here.1 there.1, ?_, roots, constants, ?_⟩
  · rintro x ⟨covered, live, live'⟩
    -- whether it was changed or not, an object shows what its partner shows
    have shows : ∃ content, h'.content? x = some content ∧ g'.content? (φ.partner x) = some (content.map φ.partner) ∧
        ∀ y ∈ content.refs, φ.covers y := by
      by_cases inside : S x
      · exact changed x covered inside
      · obtain ⟨content, here⟩ := left.sound.element_iff.1 live
        obtain ⟨content', there⟩ := right.sound.element_iff.1 live'
        have old := right.old _ content' (fun changed => inside ((paired x covered).2 changed)) there
        obtain ⟨same, refs⟩ := mirrors.content? covered (left.old x content inside here)
        rw [old] at same
        cases same
        exact ⟨content, here, there, refs⟩
    obtain ⟨content, here, there, refs⟩ := shows
    refine ⟨content, here, there, fun y ref => ⟨refs y ref, left.sound.element_of_ref here ref, ?_⟩⟩
    exact right.sound.element_of_ref there (by rw [Content.refs_map]; exact List.mem_map_of_mem ref)
  · intro x root
    have there : φ.partner x ∈ g'.collectionRoots [] := by
      rw [right.collectionRoots, mirrors.collectionRoots, ← left.collectionRoots]
      exact List.mem_map_of_mem root
    refine ⟨mirrors.covered x ?_, left.sound.roots x root, right.sound.roots _ there⟩
    rwa [← left.collectionRoots]

/-- The pairing with one more pair. -/
def extend (φ : Pairing) (x y : Handle) : Pairing where
  covers z := z = x ∨ φ.covers z
  partner := Function.update φ.partner x y

theorem extend_partner_self (φ : Pairing) (x y : Handle) : (φ.extend x y).partner x = y := by
  simp [extend]

theorem extend_partner_of_ne {z : Handle} (different : z ≠ x) : (φ.extend x y).partner z = φ.partner z := by
  simp [extend, different]

/-- A new object in both heaps leaves mirrors. -/
theorem Mirrors.entered (mirrors : φ.Mirrors h g) (left : Entered x p h h') (right : Entered y (p.map φ.partner) g g')
    (refs : ∀ z ∈ p.refs, φ.covers z) (list : ∀ r, p = .seglist r → r = {}) (segment : p.tag ≠ .segment)
    (sound : h'.Sound none) (sound' : g'.Sound none) : (φ.extend x y).Mirrors h' g' := by
  have list' : ∀ r, p.map φ.partner = .seglist r → r = {} := by
    intro r same
    rcases Payload.shown_cases list with ⟨-, other⟩ | ⟨-, rfl⟩
    · rw [← Payload.tag_map φ.partner, same] at other
      exact absurd rfl other
    · cases same
      rfl
  have here := left.content? mirrors.sound.toShaped segment (Payload.shown_cases list)
  have there := right.content? mirrors.sound'.toShaped (by rwa [Payload.tag_map]) (Payload.shown_cases list')
  rw [Payload.shown_map] at there
  -- the slots were free, so neither is in use for the old pairs
  have apart : ∀ z, φ.covers z → z ≠ x ∧ φ.partner z ≠ y := by
    intro z covered
    obtain ⟨⟨q, live, -⟩, q', live', -⟩ := mirrors.element covered
    refine ⟨?_, ?_⟩
    · rintro rfl
      rw [left.fresh] at live
      cases live
    · intro same
      rw [same, right.fresh] at live'
      cases live'
  have same : ∀ z, φ.covers z → φ.partner z = (φ.extend x y).partner z := fun z covered =>
    (extend_partner_of_ne (apart z covered).1).symm
  refine ⟨sound, sound', ?_, ?_, ?_, ?_, ?_⟩
  · rintro a b (rfl | covered) (rfl | covered') equal
    · rfl
    · rw [extend_partner_self, ← same b covered'] at equal
      exact absurd equal.symm (apart b covered').2
    · rw [extend_partner_self, ← same a covered] at equal
      exact absurd equal (apart a covered).2
    · rw [← same a covered, ← same b covered'] at equal
      exact mirrors.injective a b covered covered' equal
  · rintro z (rfl | covered)
    · have shown : h'.content? z = some p.shown := by rw [here, Function.update_self]
      have needed : ∀ w ∈ p.shown.refs, φ.covers w := by rwa [Payload.refs_shown segment]
      refine ⟨p.shown, shown, ?_, fun w ref => .inr (needed w ref)⟩
      rw [extend_partner_self, there, Function.update_self]
      exact congrArg some (content?_map_congr shown fun w ref => same w (needed w ref))
    · obtain ⟨content, shown, shown', others⟩ := mirrors.shown z covered
      refine ⟨content, ?_, ?_, fun w ref => .inr (others w ref)⟩
      · rw [here, Function.update_of_ne (apart z covered).1, shown]
      · rw [← same z covered, there, Function.update_of_ne (apart z covered).2, shown']
        exact congrArg some (content?_map_congr shown fun w ref => same w (others w ref))
  · rw [right.roots, mirrors.roots, left.roots]
    refine RootSet.map_congr fun z root => same z (mirrors.covered z ?_)
    exact List.mem_append_left _ (List.mem_append_left _ root)
  · rw [right.constants, mirrors.constants, left.constants]
    refine Constants.map_congr fun z constant => same z (mirrors.covered z ?_)
    exact List.mem_append_left _ (List.mem_append_right _ constant)
  · intro z root
    rw [left.collectionRoots] at root
    exact .inr (mirrors.covered z root)

/-- The same roots in both heaps. -/
theorem Mirrors.rerooted (mirrors : φ.Mirrors h g) {roots : RootSet} (covered : ∀ x ∈ roots.toList, φ.covers x) :
    φ.Mirrors { h with roots := roots } { g with roots := roots.map φ.partner } := by
  refine ⟨?_, ?_, mirrors.injective, fun x inside => ?_, rfl, mirrors.constants, fun x root => ?_⟩
  · exact mirrors.sound.rerooted fun x root => (mirrors.element (covered x root)).1
  · refine mirrors.sound'.rerooted fun y root => ?_
    rw [RootSet.toList_map] at root
    obtain ⟨x, member, rfl⟩ := List.mem_map.1 root
    exact (mirrors.element (covered x member)).2
  · rw [mirrors.sound.content?_rerooted, mirrors.sound'.content?_rerooted]
    exact mirrors.shown x inside
  · rcases List.mem_append.1 root with root | none
    · rcases List.mem_append.1 root with root | constant
      · exact covered x root
      · exact mirrors.covered x (List.mem_append_left _ (List.mem_append_right _ constant))
    · cases none

end Pairing

end ChunkHeap

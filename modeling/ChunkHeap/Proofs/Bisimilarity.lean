import ChunkHeap.Proofs.Comparison
import ChunkHeap.Proofs.Containers.Sequences

/-!
# Equality of values

Two objects are equal as values when they cannot be told apart from outside:
scalars by what they hold, tuples and lists by their kind, their lengths and the
values at each place, anything else by identity. Containers may contain
themselves, so this is a greatest relation: the objects are `Bisimilar` when some
relation that survives one look at both sides relates them.

* A comparison that ends decides it (`bisimilar_of_same`, `not_bisimilar_of_differ`).
* It ends when one side is nested no deeper than the levels it may go down
  (`NestedWithin.compareWithin_ok`).
-/

namespace ChunkHeap
set_option autoImplicit false

namespace Facet

variable {sequences : List Handle → List Handle → Except Error Comparison} {R : Handle → Handle → Prop} {f g : Facet}

theorem alike_refl (f : Facet) (items : ∀ x ∈ f.items, R x x) : f.Alike R f := by
  cases f with
  | none => exact .none
  | int v => exact .int v
  | str s => exact .str s
  | tuple xs => exact .tuple (List.forall₂_same.2 items)
  | list xs => exact .list (List.forall₂_same.2 items)
  | own => exact .own

/-- Facets found the same are of one kind, with elements found the same. -/
theorem alike_of_same (same : f.compare sequences g = .ok .same)
    (items : sequences f.items g.items = .ok .same → List.Forall₂ R f.items g.items) : f.Alike R g := by
  cases f with
  | none => cases g with
    | none => exact .none
    | _ => cases same
  | int v => cases g with
    | int w =>
      obtain rfl : v = w := by simpa [compare] using same
      exact .int v
    | _ => cases same
  | str s => cases g with
    | str t =>
      obtain rfl : s = t := by simpa [compare] using same
      exact .str s
    | _ => cases same
  | tuple xs => cases g with
    | tuple ys => exact .tuple (items same)
    | _ => cases same
  | list xs => cases g with
    | list ys => exact .list (items same)
    | _ => cases same
  | own => cases g <;> cases same

/-- Two objects that a comparison does not look into are not found the same. -/
theorem ne_own_of_same (same : f.compare sequences g = .ok .same) : f ≠ .own := by
  rintro rfl
  cases g <;> cases same

/-- Alike facets differ only in their elements. -/
theorem Alike.compare_ne_differ (alike : f.Alike R g) (plain : f ≠ .own)
    (items : ∀ {xs ys}, List.Forall₂ R xs ys → sequences xs ys ≠ .ok .differ) : f.compare sequences g ≠ .ok .differ := by
  cases alike with
  | none => simp [Facet.compare]
  | int v => simp [Facet.compare, Comparison.ofBool]
  | str s => simp [Facet.compare, Comparison.ofBool]
  | tuple related => exact items related
  | list related => exact items related
  | own => exact absurd rfl plain

/-- Whether an object has elements that a comparison goes into. -/
def IsSequence : Facet → Prop
  | tuple _ | list _ => True
  | _ => False

/-- Only two containers can make a comparison fail. -/
theorem isSequence_of_error {e : Error} (failed : f.compare sequences g = .error e) : f.IsSequence := by
  cases f with
  | tuple | list => trivial
  | _ => cases g <;> cases failed

end Facet

/-- Elements of which no pair differs do not make a difference. -/
theorem elementwise_ne_differ {compare : Handle → Handle → Except Error Comparison} {xs ys : List Handle}
    (pairs : List.Forall₂ (fun x y => compare x y ≠ .ok .differ) xs ys) : elementwise compare xs ys ≠ .ok .differ := by
  induction pairs with
  | nil => simp [elementwise]
  | @cons x y xs ys head _ ih =>
    rw [elementwise]
    cases first : compare x y with
    | error e => simp [bind, Except.bind]
    | ok outcome =>
      cases outcome with
      | same => exact ih
      | differ => exact absurd first head

namespace Heap

variable {h : Heap} {a b c x y : Handle} {p q r : Payload} {R : Handle → Handle → Prop} {xs ys : List Handle} {depth n : Nat}

/-! ### Bisimilarity -/

/-- Two live objects match up to `R`: by kind, by value, by text, element by element, or as one object. -/
inductive Matches (h : Heap) (R : Handle → Handle → Prop) : Handle → Handle → Prop
  | none {a b : Handle} (left : h.find? a = some .none) (right : h.find? b = some .none) : Matches h R a b
  | int {a b : Handle} {v : Int32} (left : h.find? a = some (.int v)) (right : h.find? b = some (.int v)) : Matches h R a b
  | str {a b : Handle} {s : String} (left : h.find? a = some (.str s)) (right : h.find? b = some (.str s)) : Matches h R a b
  | tuple {a b : Handle} {xs ys : List Handle} (left : h.find? a = some (.tuple xs)) (right : h.find? b = some (.tuple ys))
      (items : List.Forall₂ R xs ys) : Matches h R a b
  | list {a b : Handle} {xs ys : List Handle} (left : h.listItems a = .ok xs) (right : h.listItems b = .ok ys)
      (items : List.Forall₂ R xs ys) : Matches h R a b
  | self {a : Handle} {p : Payload} (found : h.find? a = some p)
      (other : p.tag ∉ [Tag.none, .int, .str, .tuple, .list]) : Matches h R a a

/-- Two objects that cannot be told apart, however far one looks into them. -/
def Bisimilar (h : Heap) (a b : Handle) : Prop :=
  ∃ R : Handle → Handle → Prop, (∀ x y, R x y → h.Matches R x y) ∧ R a b

/-- The elements of a list, as a comparison sees them. -/
theorem Sound.listItems_eq_ok_iff (sound : h.Sound none) :
    h.listItems a = .ok xs ↔ ∃ r, h.find? a = some (.list r) ∧ h.facet (.list r) = .list xs := by
  constructor
  · intro read
    obtain ⟨s, has⟩ := sound.hasItems_of_listItems read
    refine ⟨_, has.find?, ?_⟩
    rw [facet, (segListItems_of_items has.storage).2]
    rfl
  · rintro ⟨r, found, seen⟩
    obtain ⟨ys, has⟩ := sound.hasItems found
    rw [facet, (segListItems_of_items has.storage).2] at seen
    cases seen
    exact has.listItems

theorem facet_eq_own_iff : h.facet p = .own ↔ p.tag ∉ [Tag.none, .int, .str, .tuple, .list] := by
  cases p <;> simp [facet, Payload.tag]

theorem matches_of_alike (sound : h.Sound none) (left : h.find? a = some p) (right : h.find? b = some q)
    (plain : h.facet p ≠ .own) (alike : (h.facet p).Alike R (h.facet q)) : h.Matches R a b := by
  cases p with
  | none =>
    cases q with
    | none => exact .none left right
    | _ => cases alike
  | int v =>
    cases q with
    | int w =>
      cases alike
      exact .int left right
    | _ => cases alike
  | str s =>
    cases q with
    | str t =>
      cases alike
      exact .str left right
    | _ => cases alike
  | tuple xs =>
    cases q with
    | tuple ys =>
      cases alike with
      | tuple items => exact .tuple left right items
    | _ => cases alike
  | list r =>
    cases q with
    | list s =>
      cases alike with
      | list items =>
        exact .list (sound.listItems_eq_ok_iff.2 ⟨r, left, rfl⟩) (sound.listItems_eq_ok_iff.2 ⟨s, right, rfl⟩) items
    | _ => cases alike
  | _ => exact absurd rfl plain

/-- Objects that match are one object, or look alike to a comparison. -/
theorem alike_of_matches (sound : h.Sound none) (found : h.Matches R a b) :
    (a = b ∧ ∃ p, h.find? a = some p) ∨ ∃ p q, h.find? a = some p ∧ h.find? b = some q ∧ h.facet p ≠ .own ∧
      (h.facet p).Alike R (h.facet q) := by
  cases found with
  | none left right => exact .inr ⟨_, _, left, right, by simp [facet], .none⟩
  | int left right => exact .inr ⟨_, _, left, right, by simp [facet], .int _⟩
  | str left right => exact .inr ⟨_, _, left, right, by simp [facet], .str _⟩
  | tuple left right items => exact .inr ⟨_, _, left, right, by simp [facet], .tuple items⟩
  | list left right items =>
    obtain ⟨r, found, seen⟩ := sound.listItems_eq_ok_iff.1 left
    obtain ⟨s, found', seen'⟩ := sound.listItems_eq_ok_iff.1 right
    refine .inr ⟨_, _, found, found', by simp [facet], ?_⟩
    rw [seen, seen']
    exact .list items
  | self found other => exact .inl ⟨rfl, _, found⟩

/-- Objects that a comparison finds the same, at whatever depth. -/
def FoundSame (h : Heap) (a b : Handle) : Prop :=
  (∃ p, h.find? a = some p) ∧ (∃ q, h.find? b = some q) ∧ ∃ depth, h.compareWithin depth a b = .ok .same

/-- What is found the same survives one look at both sides. -/
theorem FoundSame.matches (found : h.FoundSame a b) (sound : h.Sound none) : h.Matches h.FoundSame a b := by
  obtain ⟨⟨p, left⟩, ⟨q, right⟩, depth, same⟩ := found
  rw [compareWithin_eq sound depth left right] at same
  split at same
  · rename_i one
    subst one
    by_cases own : h.facet p = .own
    · exact .self left (facet_eq_own_iff.1 own)
    · apply matches_of_alike sound left left own
      apply Facet.alike_refl
      intro x inside
      obtain ⟨r, live⟩ := sound.facet_live left x inside
      exact ⟨⟨r, live⟩, ⟨r, live⟩, 0, h.compareWithin_self 0 x⟩
  · have items : h.sequences depth (h.facet p).items (h.facet q).items = .ok .same →
        List.Forall₂ h.FoundSame (h.facet p).items (h.facet q).items := by
      intro elements
      obtain ⟨length, less, -, each⟩ := same_of_sequences elements
      refine (forall₂_of_elementwise length each).imp ?_
      rintro x y ⟨inside, inside', equal⟩
      exact ⟨sound.facet_live left x inside, sound.facet_live right y inside', less, equal⟩
    exact matches_of_alike sound left right (Facet.ne_own_of_same same) (Facet.alike_of_same same items)

/-- A comparison that finds no difference is right. -/
theorem bisimilar_of_same (sound : h.Sound none) (left : h.find? a = some p) (right : h.find? b = some q)
    (same : h.compareWithin depth a b = .ok .same) : h.Bisimilar a b :=
  ⟨h.FoundSame, fun _ _ found => found.matches sound, ⟨p, left⟩, ⟨q, right⟩, depth, same⟩

/-- A comparison that finds a difference is right. -/
theorem not_bisimilar_of_differ (sound : h.Sound none) (differ : h.compareWithin depth a b = .ok .differ) :
    ¬ h.Bisimilar a b := by
  rintro ⟨R, survives, related⟩
  -- related objects are never told apart, at any depth
  induction depth using Nat.strongRecOn generalizing a b with
  | ind depth ih =>
    obtain ⟨rfl, p, found⟩ | ⟨p, q, left, right, plain, alike⟩ := alike_of_matches sound (survives a b related)
    · rw [compareWithin_self] at differ
      cases differ
    · rw [compareWithin_eq sound depth left right] at differ
      split at differ
      · cases differ
      · refine alike.compare_ne_differ plain ?_ differ
        intro xs ys pairs
        unfold sequences
        rw [if_pos pairs.length_eq]
        cases depth with
        | zero => simp
        | succ less =>
          exact elementwise_ne_differ (pairs.imp fun x y both different => ih less (Nat.lt_succ_self less) different both)

/-! ### Nesting -/

/-- Containers lie at most `n` levels deep in the object; an empty one is a level of its own. -/
def NestedWithin (h : Heap) : Nat → Handle → Prop
  | 0, x => ∀ xs, h.sequenceItems x ≠ .ok xs
  | n + 1, x => ∀ xs, h.sequenceItems x = .ok xs → ∀ y ∈ xs, h.NestedWithin n y

theorem nestedWithin_zero_iff : h.NestedWithin 0 x ↔ (h.sequenceItems x).toOption = none := by
  unfold NestedWithin
  cases h.sequenceItems x <;> simp [Except.toOption]

theorem nestedWithin_succ_iff :
    h.NestedWithin (n + 1) x ↔ ∀ xs ∈ (h.sequenceItems x).toOption, ∀ y ∈ xs, h.NestedWithin n y := by
  rw [NestedWithin]
  cases h.sequenceItems x <;> simp [Except.toOption]

instance NestedWithin.decidable (h : Heap) : (n : Nat) → (x : Handle) → Decidable (h.NestedWithin n x)
  | 0, _ => decidable_of_iff' _ nestedWithin_zero_iff
  | n + 1, _ =>
    have := NestedWithin.decidable h n
    decidable_of_iff' _ nestedWithin_succ_iff

/-- A comparison goes into the elements of a container. -/
theorem Sound.sequenceItems_of_facet (sound : h.Sound none) (found : h.find? a = some p) (seq : (h.facet p).IsSequence) :
    h.sequenceItems a = .ok (h.facet p).items := by
  cases p with
  | tuple xs =>
    rw [sequenceItems, payload_ok found]
    rfl
  | list r =>
    obtain ⟨xs, shown, -⟩ := sound.list_items found
    rw [sequenceItems, payload_ok found, facet, (segListItems_of_items shown).2]
    exact (segListItems_of_items shown).2
  | _ => exact seq.elim

/-- A comparison can end if one of the objects is not nested too deeply. -/
theorem NestedWithin.compareWithin_ok (nested : h.NestedWithin n a) (sound : h.Sound none) (left : h.find? a = some p)
    (right : h.find? b = some q) (e : Error) : h.compareWithin n a b ≠ .error e := by
  intro failed
  induction n generalizing a b p q with
  | zero =>
    rw [compareWithin_eq sound 0 left right] at failed
    split at failed
    · cases failed
    · exact nested _ (sound.sequenceItems_of_facet left (Facet.isSequence_of_error failed))
  | succ n ih =>
    rw [compareWithin_eq sound _ left right] at failed
    split at failed
    · cases failed
    · have seen := sound.sequenceItems_of_facet left (Facet.isSequence_of_error failed)
      have elements := Facet.compare_error failed
      unfold sequences at elements
      split at elements
      · obtain ⟨x, inside, y, inside', failed'⟩ := elementwise_error elements
        obtain ⟨_, live⟩ := sound.facet_live left x inside
        obtain ⟨_, live'⟩ := sound.facet_live right y inside'
        exact ih (nested _ seen x inside) live live' failed'
      · cases elements

/-! ### The comparison -/

/-- **The comparison decides equality of values.** -/
theorem compare_decides_equality (sound : h.Sound none) (left : h.isLive a) (right : h.isLive b) :
    (h.compare a b = .ok .same → h.Bisimilar a b) ∧
    (h.compare a b = .ok .differ → ¬ h.Bisimilar a b) ∧
    (∀ e, h.compare a b = .error e →
      e = .compareDepth ∧ e.kind = .value ∧ e.message = "maximum comparison depth exceeded") ∧
    (h.NestedWithin 16 a ∨ h.NestedWithin 16 b →
      (∃ outcome, h.compare a b = .ok outcome) ∧ (h.compare a b = .ok .same ↔ h.Bisimilar a b)) := by
  obtain ⟨p, found⟩ := isLive_iff_find?.1 left
  obtain ⟨q, found'⟩ := isLive_iff_find?.1 right
  have same : h.compare a b = .ok .same → h.Bisimilar a b := bisimilar_of_same sound found found'
  have differ : h.compare a b = .ok .differ → ¬ h.Bisimilar a b := not_bisimilar_of_differ sound
  refine ⟨same, differ, ?_, ?_⟩
  · intro e failed
    obtain rfl := compareWithin_error sound maxCompareDepth found found' failed
    exact ⟨rfl, rfl, rfl⟩
  · intro shallow
    have ends : ∀ e, h.compare a b ≠ .error e := by
      intro e
      obtain nested | nested := shallow
      · exact nested.compareWithin_ok sound found found' e
      · rw [Heap.compare, compareWithin_symm sound maxCompareDepth found found']
        exact nested.compareWithin_ok sound found' found e
    cases outcome : h.compare a b with
    | error e => exact absurd outcome (ends e)
    | ok verdict =>
      refine ⟨⟨verdict, rfl⟩, ?_⟩
      constructor
      · intro equal
        exact same (outcome.trans equal)
      · intro equal
        cases verdict with
        | same => rfl
        | differ => exact absurd equal (differ outcome)

/-- A heap with room for some nested containers. -/
def roomy : HeapConfig := { arenaBytes := 400, maxChunkBytes := 64 }

/-- Tuples in each other, the innermost one empty, in slots that follow `first`. -/
def nest (first levels : Nat) : List Call :=
  (List.range levels).flatMap fun k =>
    [.create (.tuple (if k = 0 then [] else [⟨first + k - 1⟩])), .pushRoot ⟨first + k⟩]

/-- Two lists that contain themselves, and two nests of seventeen tuples. -/
def nesting : List Call :=
  [.create .list, .pushRoot ⟨5⟩, .update (.listAppend ⟨5⟩ ⟨5⟩),
    .create .list, .pushRoot ⟨8⟩, .update (.listAppend ⟨8⟩ ⟨8⟩)] ++ nest 10 17 ++ nest 27 17

abbrev nested : Heap :=
  (Client.ended roomy nesting).heap

theorem nested_sound : nested.Sound none := by
  apply Regular.sound
  apply Client.regular_ended
  decide +kernel

/-- Sixteen levels are compared to the end, with seventeen as well; seventeen with seventeen and lists in themselves are not. -/
theorem compare_decides_equality_nested :
    nested.NestedWithin 16 ⟨25⟩ ∧ ¬ nested.NestedWithin 16 ⟨26⟩ ∧ ¬ nested.NestedWithin 16 ⟨5⟩ ∧
      nested.Bisimilar ⟨25⟩ ⟨42⟩ ∧ ¬ nested.Bisimilar ⟨25⟩ ⟨43⟩ ∧
      nested.compare ⟨26⟩ ⟨43⟩ = .error .compareDepth ∧ nested.compare ⟨5⟩ ⟨8⟩ = .error .compareDepth := by
  have shallow : nested.NestedWithin 16 ⟨25⟩ := by decide +kernel
  have equal := compare_decides_equality (a := ⟨25⟩) (b := ⟨42⟩) nested_sound (by decide +kernel) (by decide +kernel)
  have unequal := compare_decides_equality (a := ⟨25⟩) (b := ⟨43⟩) nested_sound (by decide +kernel) (by decide +kernel)
  refine ⟨shallow, by decide +kernel, by decide +kernel, ?_, ?_, by decide +kernel, by decide +kernel⟩
  · exact (equal.2.2.2 (.inl shallow)).2.1 (by decide +kernel)
  · exact unequal.2.1 (by decide +kernel)

/-- **The comparison is an equivalence, errors included.** -/
theorem compare_equivalence (sound : h.Sound none) (left : h.isLive a) (right : h.isLive b) (third : h.isLive c) :
    h.compare a a = .ok .same ∧
    h.compare a b = h.compare b a ∧
    (h.compare a b = .ok .same ∨ h.compare a b = .ok .differ ∨ h.compare a b = .error .compareDepth) ∧
    (h.compare a b = .ok .same → h.compare b c = .ok .same → h.compare a c = .ok .same) ∧
    (h.compare a b = .ok .same → h.compare b c = .ok .differ → h.compare a c = .ok .differ) := by
  obtain ⟨p, found⟩ := isLive_iff_find?.1 left
  obtain ⟨q, found'⟩ := isLive_iff_find?.1 right
  obtain ⟨r, found''⟩ := isLive_iff_find?.1 third
  have congr : h.compare a b = .ok .same → h.compare a c = h.compare b c :=
    compareWithin_congr sound maxCompareDepth found found' found''
  refine ⟨h.compareWithin_self maxCompareDepth a, compareWithin_symm sound maxCompareDepth found found', ?_, ?_, ?_⟩
  · cases outcome : h.compare a b with
    | error e =>
      obtain rfl := compareWithin_error sound maxCompareDepth found found' outcome
      exact .inr (.inr rfl)
    | ok verdict =>
      cases verdict with
      | same => exact .inl rfl
      | differ => exact .inr (.inl rfl)
  · intro same equal
    rw [congr same, equal]
  · intro same different
    rw [congr same, different]

theorem compare_equivalence_nested :
    nested.compare ⟨5⟩ ⟨5⟩ = .ok .same ∧ nested.compare ⟨25⟩ ⟨42⟩ = .ok .same ∧ nested.compare ⟨42⟩ ⟨43⟩ = .ok .differ ∧
      nested.compare ⟨25⟩ ⟨43⟩ = .ok .differ ∧ nested.compare ⟨8⟩ ⟨5⟩ = .error .compareDepth := by
  have same : nested.compare ⟨25⟩ ⟨42⟩ = .ok .same := by decide +kernel
  have different : nested.compare ⟨42⟩ ⟨43⟩ = .ok .differ := by decide +kernel
  have deep : nested.compare ⟨5⟩ ⟨8⟩ = .error .compareDepth := by decide +kernel
  have chain := compare_equivalence (a := ⟨25⟩) (b := ⟨42⟩) (c := ⟨43⟩) nested_sound (by decide +kernel)
    (by decide +kernel) (by decide +kernel)
  have cyclic := compare_equivalence (a := ⟨5⟩) (b := ⟨8⟩) (c := ⟨5⟩) nested_sound (by decide +kernel)
    (by decide +kernel) (by decide +kernel)
  exact ⟨cyclic.1, same, different, chain.2.2.2.2 same different, cyclic.2.1.symm.trans deep⟩

end Heap

end ChunkHeap

import ChunkHeap.Proofs.Contents
import Mathlib.Data.List.Forall2

/-!
# What equality depends on

A comparison looks at very little of an object, its `Facet`: the value of an
integer, the text of a string, the elements of a tuple or a list, and of anything
else only that it is none of these. `compareWithin_eq` gives comparison in these
terms. From it follow, at every depth and with errors counted as outcomes:

* comparison does not depend on the order of its operands (`compareWithin_symm`);
* objects found the same compare alike with everything (`compareWithin_congr`);
* it does not depend on where objects lie: related objects of two heaps compare
  alike when their facets are related (`Comparable.compareWithin`).
-/

namespace ChunkHeap
set_option autoImplicit false

/-- What a comparison sees of an object. -/
inductive Facet where
  | none
  | int (value : Int32)
  | str (text : String)
  | tuple (items : List Handle)
  | list (items : List Handle)
  /-- Equal to itself only. -/
  | own

namespace Facet

/-- The elements that a comparison goes into. -/
def items : Facet → List Handle
  | tuple xs | list xs => xs
  | _ => []

/-- Compare two objects by their facets, with `sequences` for the elements. -/
def compare (sequences : List Handle → List Handle → Except Error Comparison) : Facet → Facet → Except Error Comparison
  | none, none => .ok .same
  | int v, int w => .ok (.ofBool (v = w))
  | str s, str t => .ok (.ofBool (s = t))
  | tuple xs, tuple ys => sequences xs ys
  | list xs, list ys => sequences xs ys
  | _, _ => .ok .differ

/-- Facets that are the same up to the names of objects. -/
inductive Alike (R : Handle → Handle → Prop) : Facet → Facet → Prop
  | none : Alike R .none .none
  | int (value : Int32) : Alike R (.int value) (.int value)
  | str (text : String) : Alike R (.str text) (.str text)
  | tuple {xs ys : List Handle} (items : List.Forall₂ R xs ys) : Alike R (.tuple xs) (.tuple ys)
  | list {xs ys : List Handle} (items : List.Forall₂ R xs ys) : Alike R (.list xs) (.list ys)
  | own : Alike R .own .own

variable {sequences : List Handle → List Handle → Except Error Comparison} {f g : Facet}

theorem compare_symm (symm : ∀ xs ys, f.items = xs → g.items = ys → sequences xs ys = sequences ys xs) :
    f.compare sequences g = g.compare sequences f := by
  cases f with
  | int v => cases g with
    | int w => simp [compare, Comparison.ofBool, eq_comm]
    | _ => rfl
  | str s => cases g with
    | str t => simp [compare, Comparison.ofBool, eq_comm]
    | _ => rfl
  | tuple xs => cases g with
    | tuple ys => exact symm xs ys rfl rfl
    | _ => rfl
  | list xs => cases g with
    | list ys => exact symm xs ys rfl rfl
    | _ => rfl
  | none => cases g <;> rfl
  | own => cases g <;> rfl

/-- Facets found the same compare alike with a third. -/
theorem compare_congr {k : Facet} (same : f.compare sequences g = .ok .same)
    (congr : sequences f.items g.items = .ok .same → sequences f.items k.items = sequences g.items k.items) :
    f.compare sequences k = g.compare sequences k := by
  cases f with
  | none => cases g with
    | none => rfl
    | _ => cases same
  | int v => cases g with
    | int w =>
      obtain rfl : v = w := by simpa [compare] using same
      rfl
    | _ => cases same
  | str s => cases g with
    | str t =>
      obtain rfl : s = t := by simpa [compare] using same
      rfl
    | _ => cases same
  | tuple xs => cases g with
    | tuple ys => cases k with
      | tuple zs => exact congr same
      | _ => rfl
    | _ => cases same
  | list xs => cases g with
    | list ys => cases k with
      | list zs => exact congr same
      | _ => rfl
    | _ => cases same
  | own => cases g <;> cases same

/-- Only the elements can make a comparison fail. -/
theorem compare_error {e : Error} (failed : f.compare sequences g = .error e) : sequences f.items g.items = .error e := by
  cases f with
  | tuple xs =>
    cases g with
    | tuple ys => exact failed
    | _ => cases failed
  | list xs =>
    cases g with
    | list ys => exact failed
    | _ => cases failed
  | _ => cases g <;> cases failed

theorem Alike.compare {R : Handle → Handle → Prop} {f' g' : Facet}
    {sequences' : List Handle → List Handle → Except Error Comparison} (left : Alike R f f') (right : Alike R g g')
    (alike : ∀ {xs xs' ys ys'}, List.Forall₂ R xs xs' → List.Forall₂ R ys ys' → sequences xs ys = sequences' xs' ys') :
    f.compare sequences g = f'.compare sequences' g' := by
  cases left with
  | tuple items => cases right with
    | tuple items' => exact alike items items'
    | _ => rfl
  | list items => cases right with
    | list items' => exact alike items items'
    | _ => rfl
  | _ => cases right <;> rfl

end Facet

/-! ### Element by element -/

section Elementwise

variable {compare compare' : Handle → Handle → Except Error Comparison} {xs ys zs : List Handle}

/-- A list has the elements that it has. -/
theorem elementwise_self (same : ∀ x ∈ xs, compare x x = .ok .same) : elementwise compare xs xs = .ok .same := by
  induction xs with
  | nil => rfl
  | cons x xs ih =>
    rw [elementwise, same x List.mem_cons_self]
    exact ih fun y member => same y (List.mem_cons_of_mem x member)

theorem elementwise_symm (symm : ∀ x ∈ xs, ∀ y ∈ ys, compare x y = compare y x) :
    elementwise compare xs ys = elementwise compare ys xs := by
  induction xs generalizing ys with
  | nil => cases ys <;> rfl
  | cons x xs ih =>
    cases ys with
    | nil => rfl
    | cons y ys =>
      have rest := ih fun x' inside y' inside' => symm x' (List.mem_cons_of_mem _ inside) y' (List.mem_cons_of_mem _ inside')
      simp only [elementwise, symm x List.mem_cons_self y List.mem_cons_self, rest]

/-- Lists of the same length found the same are the same at every place. -/
theorem forall₂_of_elementwise (length : xs.length = ys.length) (same : elementwise compare xs ys = .ok .same) :
    List.Forall₂ (fun x y => x ∈ xs ∧ y ∈ ys ∧ compare x y = .ok .same) xs ys := by
  induction xs generalizing ys with
  | nil =>
    obtain rfl : ys = [] := List.length_eq_zero_iff.1 length.symm
    exact .nil
  | cons x xs ih =>
    obtain ⟨y, ys, rfl⟩ := List.exists_cons_of_length_eq_add_one length.symm
    simp only [elementwise] at same
    cases head : compare x y with
    | error e =>
      rw [head] at same
      cases same
    | ok outcome =>
      cases outcome with
      | differ =>
        rw [head] at same
        cases same
      | same =>
        rw [head] at same
        refine .cons ⟨List.mem_cons_self, List.mem_cons_self, head⟩ ((ih (by simpa using length) same).imp ?_)
        exact fun _ _ ⟨left, right, equal⟩ => ⟨List.mem_cons_of_mem _ left, List.mem_cons_of_mem _ right, equal⟩

theorem elementwise_congr {Q : Handle → Prop} (alike : List.Forall₂ (fun x y => ∀ z, Q z → compare x z = compare y z) xs ys)
    (each : ∀ z ∈ zs, Q z) : elementwise compare xs zs = elementwise compare ys zs := by
  induction alike generalizing zs with
  | nil => rfl
  | cons head _ ih =>
    cases zs with
    | nil => rfl
    | cons z zs =>
      have rest := ih fun z' inside => each z' (List.mem_cons_of_mem _ inside)
      simp only [elementwise, head z (each z List.mem_cons_self), rest]

theorem elementwise_related {R : Handle → Handle → Prop} {us vs : List Handle} (left : List.Forall₂ R xs us)
    (right : List.Forall₂ R ys vs) (alike : ∀ x u y v, R x u → R y v → compare x y = compare' u v) :
    elementwise compare xs ys = elementwise compare' us vs := by
  induction left generalizing ys vs with
  | nil => cases right <;> rfl
  | cons head _ ih =>
    cases right with
    | nil => rfl
    | cons head' tail' => simp only [elementwise, alike _ _ _ _ head head', ih tail']

theorem elementwise_error {e : Error} (failed : elementwise compare xs ys = .error e) :
    ∃ x ∈ xs, ∃ y ∈ ys, compare x y = .error e := by
  induction xs generalizing ys with
  | nil => cases failed
  | cons x xs ih =>
    cases ys with
    | nil => cases failed
    | cons y ys =>
      cases first : compare x y with
      | error e' =>
        rw [elementwise, first] at failed
        cases failed
        exact ⟨x, List.mem_cons_self, y, List.mem_cons_self, first⟩
      | ok outcome =>
        rw [elementwise, first] at failed
        cases outcome with
        | differ => cases failed
        | same =>
          obtain ⟨x', member, y', member', later⟩ := ih failed
          exact ⟨x', List.mem_cons_of_mem x member, y', List.mem_cons_of_mem y member', later⟩

end Elementwise

namespace Heap

variable {h g : Heap} {a b c x : Handle} {p q r : Payload} {depth : Nat}

/-- An object is the same as itself, whatever it contains. -/
theorem compareWithin_self (h : Heap) (depth : Nat) (x : Handle) : h.compareWithin depth x x = .ok .same := by
  cases depth with
  | zero => exact if_pos rfl
  | succ depth => exact if_pos rfl

/-- Compare the elements of two containers with `depth` levels left. -/
def sequences (h : Heap) (depth : Nat) (xs ys : List Handle) : Except Error Comparison :=
  if xs.length = ys.length then
    match depth with
    | 0 => .error .compareDepth
    | depth + 1 => elementwise (h.compareWithin depth) xs ys
  else
    .ok .differ

/-- The facet of an object that holds `p`. -/
def facet (h : Heap) : Payload → Facet
  | .none => .none
  | .int v => .int v
  | .str s => .str s
  | .tuple xs => .tuple xs
  | .list r => .list ((h.segListItems r.storage).toOption.getD [])
  | _ => .own

theorem compareWithin_node (h : Heap) (depth : Nat) (a b : Handle) :
    h.compareWithin depth a b = compareWithin.compareNode h a b (h.sequences depth) := by
  cases depth <;> rfl

/-- A list of a sound heap has its elements on record. -/
theorem Sound.list_items (sound : h.Sound none) {r : ListRecord} (found : h.find? x = some (.list r)) :
    ∃ xs, h.content? r.storage = some (.items xs) ∧ xs.length = r.length :=
  sound.stored_items found (List.mem_singleton_self r.storage)

/-- **Comparison by facets.** -/
theorem compareWithin_eq (sound : h.Sound none) (depth : Nat) (left : h.find? a = some p) (right : h.find? b = some q) :
    h.compareWithin depth a b =
      if a = b then .ok .same else (h.facet p).compare (h.sequences depth) (h.facet q) := by
  rw [compareWithin_node, compareWithin.compareNode]
  split
  · rfl
  · rw [payload_ok left, payload_ok right]
    cases p with
    | list r =>
      cases q with
      | list s =>
        obtain ⟨xs, shown, length⟩ := sound.list_items left
        obtain ⟨ys, shown', length'⟩ := sound.list_items right
        have read := (segListItems_of_items shown).2
        have read' := (segListItems_of_items shown').2
        simp only [facet, read, read', bind, Except.bind, ← length, ← length']
        split
        · rfl
        · rename_i different
          show _ = h.sequences depth xs ys
          unfold sequences
          rw [if_neg different]
          rfl
      | _ => rfl
    | _ => cases q <;> rfl

/-- A comparison goes on with live objects. -/
theorem Sound.facet_live (sound : h.Sound none) (found : h.find? a = some p) :
    ∀ x ∈ (h.facet p).items, ∃ q, h.find? x = some q := by
  intro x inside
  cases p with
  | tuple xs => exact (sound.refs a _ found x inside).imp fun _ facts => facts.1
  | list r =>
    obtain ⟨xs, shown, -⟩ := sound.list_items found
    have listed : x ∈ (Content.items xs).refs := by
      rw [facet, (segListItems_of_items shown).2] at inside
      exact inside
    exact (sound.element_of_ref shown listed).imp fun _ facts => facts.1
  | _ => cases inside

/-- Live objects can be compared unless they are nested too deeply. -/
theorem compareWithin_error {e : Error} (sound : h.Sound none) (depth : Nat) (left : h.find? a = some p)
    (right : h.find? b = some q) (failed : h.compareWithin depth a b = .error e) : e = .compareDepth := by
  induction depth generalizing a b p q with
  | zero =>
    rw [compareWithin_eq sound 0 left right] at failed
    split at failed
    · cases failed
    · have elements := Facet.compare_error failed
      simp only [sequences] at elements
      split at elements <;> cases elements
      rfl
  | succ depth ih =>
    rw [compareWithin_eq sound _ left right] at failed
    split at failed
    · cases failed
    · have elements := Facet.compare_error failed
      simp only [sequences] at elements
      split at elements
      · obtain ⟨x, inside, y, inside', failed'⟩ := elementwise_error elements
        obtain ⟨_, live⟩ := sound.facet_live left x inside
        obtain ⟨_, live'⟩ := sound.facet_live right y inside'
        exact ih live live' failed'
      · cases elements

/-! ### Order of the operands -/

/-- The order of the operands does not matter. -/
theorem compareWithin_symm (sound : h.Sound none) (depth : Nat) (left : h.find? a = some p)
    (right : h.find? b = some q) : h.compareWithin depth a b = h.compareWithin depth b a := by
  induction depth generalizing a b p q with
  | zero =>
    rw [compareWithin_eq sound 0 left right, compareWithin_eq sound 0 right left]
    rw [Facet.compare_symm fun xs ys _ _ => by simp only [sequences, eq_comm]]
    simp only [eq_comm]
  | succ depth ih =>
    rw [compareWithin_eq sound _ left right, compareWithin_eq sound _ right left, Facet.compare_symm]
    · simp only [eq_comm]
    · rintro xs ys rfl rfl
      have elements := elementwise_symm fun x inside y inside' =>
        (sound.facet_live left x inside).elim fun _ live => (sound.facet_live right y inside').elim fun _ live' => ih live live'
      simp only [sequences, elements, eq_comm]

/-! ### Substitution -/

/-- Sequences found the same have the same length and were compared element by element. -/
theorem same_of_sequences {xs ys : List Handle} (same : h.sequences depth xs ys = .ok .same) :
    xs.length = ys.length ∧ ∃ less, depth = less + 1 ∧ elementwise (h.compareWithin less) xs ys = .ok .same := by
  unfold sequences at same
  split at same
  · rename_i length
    cases depth with
    | zero => cases same
    | succ less => exact ⟨length, less, rfl, same⟩
  · cases same

/-- Objects found the same compare alike with every live object, errors included. -/
theorem compareWithin_congr (sound : h.Sound none) (depth : Nat) (left : h.find? a = some p) (right : h.find? b = some q)
    (third : h.find? c = some r) (same : h.compareWithin depth a b = .ok .same) :
    h.compareWithin depth a c = h.compareWithin depth b c := by
  induction depth using Nat.strongRecOn generalizing a b c p q r with
  | ind depth ih =>
    -- handles that coincide make the claim one about two objects
    by_cases ab : a = b
    · rw [ab]
    · by_cases ac : a = c
      · subst ac
        rw [compareWithin_symm sound depth right left, same, compareWithin_self]
      · by_cases bc : b = c
        · subst bc
          rw [same, compareWithin_self]
        · rw [compareWithin_eq sound depth left right, if_neg ab] at same
          rw [compareWithin_eq sound depth left third, if_neg ac, compareWithin_eq sound depth right third, if_neg bc]
          refine Facet.compare_congr same fun found => ?_
          obtain ⟨length, less, rfl, elements⟩ := same_of_sequences found
          have pairs : List.Forall₂ (fun x y => ∀ z, (∃ p, h.find? z = some p) →
              h.compareWithin less x z = h.compareWithin less y z) (h.facet p).items (h.facet q).items := by
            refine (forall₂_of_elementwise length elements).imp ?_
            rintro x y ⟨inside, inside', equal⟩ z ⟨_, live⟩
            obtain ⟨_, here⟩ := sound.facet_live left x inside
            obtain ⟨_, there⟩ := sound.facet_live right y inside'
            exact ih less (Nat.lt_succ_self less) here there live equal
          simp only [sequences, length, elementwise_congr pairs (sound.facet_live third)]

/-! ### Place in the heap -/

/-- Related objects of two heaps look alike to a comparison. -/
structure Comparable (R : Handle → Handle → Prop) (h g : Heap) : Prop where
  one_to_one : ∀ x y x' y', R x y → R x' y' → (x = x' ↔ y = y')
  facets : ∀ x y, R x y → ∃ p q, h.find? x = some p ∧ g.find? y = some q ∧ (h.facet p).Alike R (g.facet q)

/-- Comparison does not depend on where objects lie. -/
theorem Comparable.compareWithin {R : Handle → Handle → Prop} {a' b' : Handle} (comparable : Comparable R h g)
    (sound : h.Sound none) (sound' : g.Sound none) (depth : Nat) (left : R a a') (right : R b b') :
    h.compareWithin depth a b = g.compareWithin depth a' b' := by
  induction depth using Nat.strongRecOn generalizing a b a' b' with
  | ind depth ih =>
    obtain ⟨p, p', found, found', alike⟩ := comparable.facets a a' left
    obtain ⟨q, q', there, there', alike'⟩ := comparable.facets b b' right
    rw [compareWithin_eq sound depth found there, compareWithin_eq sound' depth found' there']
    have elements : ∀ {xs xs' ys ys'}, List.Forall₂ R xs xs' → List.Forall₂ R ys ys' →
        h.sequences depth xs ys = g.sequences depth xs' ys' := by
      intro xs xs' ys ys' items items'
      unfold sequences
      rw [items.length_eq, items'.length_eq]
      split
      · cases depth with
        | zero => rfl
        | succ less => exact elementwise_related items items' fun x u y v => ih less (Nat.lt_succ_self less)
      · rfl
    rw [alike.compare alike' elements]
    simp only [comparable.one_to_one a a' b b' left right]

theorem Comparable.compare {R : Handle → Handle → Prop} {a' b' : Handle} (comparable : Comparable R h g)
    (sound : h.Sound none) (sound' : g.Sound none) (left : R a a') (right : R b b') : h.compare a b = g.compare a' b' :=
  comparable.compareWithin sound sound' maxCompareDepth left right

/-- An object that shows the same twice has the same facet, if its storage does too. -/
theorem alike_of_content? {R : Handle → Handle → Prop} (found : g.find? x = some p) (tag : p.tag ≠ .segment)
    (same : ∀ content, g.content? x = some content → h.content? x = some content)
    (storage : ∀ r content, p = .list r → g.content? r.storage = some content → h.content? r.storage = some content)
    (sound' : g.Sound none) (related : ∀ y ∈ (g.facet p).items, g.Element y → R y y) :
    ∃ q, h.find? x = some q ∧ (h.facet q).Alike R (g.facet p) := by
  by_cases list : p.tag = .seglist
  · cases p with
    | seglist r =>
      obtain ⟨c, chained⟩ := sound'.chains x r found
      obtain ⟨⟨r', found'⟩, -⟩ := segListItems_of_items (same _ (Carries.content? ⟨r, found, chained⟩))
      exact ⟨_, found', .own⟩
    | _ => cases list
  · have found' := (find?_of_record (same _ (content?_of_record found list tag))).1
    refine ⟨p, found', ?_⟩
    cases p with
    | none => exact .none
    | int v => exact .int v
    | str t => exact .str t
    | tuple xs => exact .tuple (List.forall₂_same.2 fun y member => related y member (sound'.refs x _ found y member))
    | list r =>
      obtain ⟨xs, there, -⟩ := sound'.list_items found
      have items : (g.facet (.list r)).items = xs := by
        rw [facet, (segListItems_of_items there).2]
        rfl
      rw [items] at related
      rw [facet, facet, (segListItems_of_items there).2, (segListItems_of_items (storage r _ rfl there)).2]
      exact .list (List.forall₂_same.2 fun y member => related y member (sound'.element_of_ref there member))
    | _ => exact .own

/-- A change that spares what comparisons look at does not show in them. -/
theorem Altered.compare {S : Handle → Prop} (altered : Altered S h g) (sound : h.Sound none)
    (own : ∀ x q, S x → g.find? x = some q → ∃ p, h.find? x = some p ∧ h.facet p = .own ∧ g.facet q = .own)
    (storages : ∀ x r, g.find? x = some (.list r) → ¬ S r.storage) (left : g.Element a) (right : g.Element b) :
    g.compare a b = h.compare a b := by
  have comparable : Comparable (fun x y => x = y ∧ g.Element x) h g := by
    refine ⟨?_, ?_⟩
    · rintro x y x' y' ⟨rfl, -⟩ ⟨rfl, -⟩
      exact Iff.rfl
    · rintro x y ⟨rfl, q, found, tag⟩
      by_cases inside : S x
      · obtain ⟨p, found', before, after⟩ := own x q inside found
        exact ⟨p, q, found', found, by rw [before, after]; exact .own⟩
      · obtain ⟨p, found', alike⟩ := alike_of_content? (R := fun x y => x = y ∧ g.Element x) found tag
          (fun content => altered.old x content inside)
          (by rintro r content rfl; exact altered.old _ content (storages x r found)) altered.sound
          fun y _ element => ⟨rfl, element⟩
        exact ⟨p, q, found', found, alike⟩
  exact (comparable.compare sound altered.sound ⟨rfl, left⟩ ⟨rfl, right⟩).symm

/-- A segment differs from every other object. -/
theorem compare_segment {r : SegmentRecord} (sound : h.Sound none) (left : h.Element a)
    (right : h.find? b = some (.segment r)) : h.compare a b = .ok .differ := by
  have other : a ≠ b := by
    rintro rfl
    exact left.not_segment r right
  obtain ⟨p, found, -⟩ := left
  rw [Heap.compare, compareWithin_eq sound _ found right, if_neg other]
  cases h.facet p <;> rfl

/-- Cursors do not matter to a comparison. -/
theorem Glanced.compare (glanced : Glanced h g) (sound : h.Sound none) (left : h.Element a)
    (right : ∃ p, h.find? b = some p) : g.compare a b = h.compare a b := by
  obtain ⟨p, found⟩ := right
  by_cases segment : p.tag = .segment
  · cases p <;> cases segment
    have found' := glanced.find? found (by simp [Payload.tag])
    rw [compare_segment sound left found, compare_segment (glanced.sound none sound) (glanced.element left) found']
  · exact (glanced.altered sound fun _ => False).compare sound (fun _ _ none => none.elim) (fun _ _ _ none => none)
      (glanced.element left) (glanced.element ⟨p, found, segment⟩)

end Heap

end ChunkHeap

import ChunkHeap.Proofs.Likeness.Mirrors

/-!
# Reading from heaps that mirror each other

Reading an object and reading its partner give the same number, text or error, and
lists of objects and of their partners. Comparing and printing go through the graph
of the objects, and where these lie does not matter to them.
-/

namespace ChunkHeap
set_option autoImplicit false

namespace Pairing

open Heap

variable {φ : Pairing} {h g : Heap} {x y l s d ks vs : Handle} {p : Payload} {xs : List Handle} {E : List (Handle × Handle)}

/-- What partners hold. Of two segmented lists only the lengths are known to agree. -/
inductive Likewise (f : Handle → Handle) : Payload → Payload → Prop
  | record {p : Payload} (list : p.tag ≠ .seglist) (segment : p.tag ≠ .segment) : Likewise f p (p.map f)
  | list {r r' : SegListRecord} (length : r'.length = r.length) : Likewise f (.seglist r) (.seglist r')

theorem Likewise.tag {f : Handle → Handle} {q : Payload} (alike : Likewise f p q) : q.tag = p.tag := by
  cases alike with
  | record => exact p.tag_map f
  | list => rfl

namespace Mirrors

theorem held (mirrors : φ.Mirrors h g) (covered : φ.covers x) :
    ∃ p q, h.find? x = some p ∧ g.find? (φ.partner x) = some q ∧ Likewise φ.partner p q := by
  obtain ⟨content, here, there, -⟩ := mirrors.shown x covered
  cases content with
  | record p =>
    obtain ⟨found, list, segment⟩ := find?_of_record here
    exact ⟨p, _, found, (find?_of_record there).1, .record list segment⟩
  | items xs =>
    obtain ⟨⟨r, found⟩, read⟩ := segListItems_of_items here
    obtain ⟨⟨r', found'⟩, read'⟩ := segListItems_of_items there
    have length := segListLength_of_segListItems read
    have length' := segListLength_of_segListItems read'
    rw [segListLength_ok found] at length
    rw [segListLength_ok found', List.length_map] at length'
    exact ⟨_, _, found, found', .list ((Except.ok.inj length').trans (Except.ok.inj length).symm)⟩

/-- What a covered object refers to is covered. -/
theorem covers_ref (mirrors : φ.Mirrors h g) (covered : φ.covers x) (found : h.find? x = some p) (ref : y ∈ p.refs) :
    φ.covers y := by
  obtain ⟨content, here, -, refs⟩ := mirrors.shown x covered
  cases content with
  | record q =>
    rw [(find?_of_record here).1] at found
    cases found
    exact refs y ref
  | items xs =>
    obtain ⟨⟨r, list⟩, -⟩ := segListItems_of_items here
    rw [list] at found
    cases found
    cases ref

/-! ### Single objects -/

theorem intValue (mirrors : φ.Mirrors h g) (covered : φ.covers x) : g.intValue (φ.partner x) = h.intValue x := by
  obtain ⟨p, q, here, there, alike⟩ := mirrors.held covered
  rw [Heap.intValue, Heap.intValue, payload_ok here, payload_ok there]
  cases alike with
  | record => cases p <;> rfl
  | list => rfl

theorem strText (mirrors : φ.Mirrors h g) (covered : φ.covers x) : g.strText (φ.partner x) = h.strText x := by
  obtain ⟨p, q, here, there, alike⟩ := mirrors.held covered
  rw [Heap.strText, Heap.strText, payload_ok here, payload_ok there]
  cases alike with
  | record => cases p <;> rfl
  | list => rfl

theorem strEquals (mirrors : φ.Mirrors h g) (covered : φ.covers x) (text : String) :
    g.strEquals (φ.partner x) text = h.strEquals x text := by
  obtain ⟨p, q, here, there, alike⟩ := mirrors.held covered
  rw [Heap.strEquals, Heap.strEquals, payload_ok here, payload_ok there]
  cases alike with
  | record => cases p <;> rfl
  | list => rfl

theorem tagOf (mirrors : φ.Mirrors h g) (covered : φ.covers x) : g.tagOf (φ.partner x) = h.tagOf x := by
  obtain ⟨p, q, here, there, alike⟩ := mirrors.held covered
  rw [mirrors.sound.headed.tagOf_eq, mirrors.sound'.headed.tagOf_eq, payload_ok here, payload_ok there]
  exact congrArg Except.ok alike.tag

theorem expectTag (mirrors : φ.Mirrors h g) (covered : φ.covers x) (tag : Tag) :
    g.expectTag (φ.partner x) tag = h.expectTag x tag := by
  rw [Heap.expectTag, Heap.expectTag, mirrors.tagOf covered]

theorem tupleItems (mirrors : φ.Mirrors h g) (covered : φ.covers x) :
    g.tupleItems (φ.partner x) = (h.tupleItems x).map (List.map φ.partner) := by
  obtain ⟨p, q, here, there, alike⟩ := mirrors.held covered
  rw [Heap.tupleItems, Heap.tupleItems, payload_ok here, payload_ok there]
  cases alike with
  | record => cases p <;> rfl
  | list => rfl

theorem listRecord (mirrors : φ.Mirrors h g) (covered : φ.covers x) :
    g.listRecord (φ.partner x) = (h.listRecord x).map fun r => ⟨r.length, φ.partner r.storage⟩ := by
  obtain ⟨p, q, here, there, alike⟩ := mirrors.held covered
  rw [Heap.listRecord, Heap.listRecord, payload_ok here, payload_ok there]
  cases alike with
  | record => cases p <;> rfl
  | list => rfl

theorem dictRecord (mirrors : φ.Mirrors h g) (covered : φ.covers x) :
    g.dictRecord (φ.partner x) = (h.dictRecord x).map fun r => ⟨r.length, φ.partner r.keys, φ.partner r.vals⟩ := by
  obtain ⟨p, q, here, there, alike⟩ := mirrors.held covered
  rw [Heap.dictRecord, Heap.dictRecord, payload_ok here, payload_ok there]
  cases alike with
  | record => cases p <;> rfl
  | list => rfl

theorem sliceRecord (mirrors : φ.Mirrors h g) (covered : φ.covers x) :
    g.sliceRecord (φ.partner x) =
      (h.sliceRecord x).map fun r => ⟨r.start.map φ.partner, r.stop.map φ.partner, r.step.map φ.partner⟩ := by
  obtain ⟨p, q, here, there, alike⟩ := mirrors.held covered
  rw [Heap.sliceRecord, Heap.sliceRecord, payload_ok here, payload_ok there]
  cases alike with
  | record => cases p <;> rfl
  | list => rfl

theorem tupleElement (mirrors : φ.Mirrors h g) (covered : φ.covers x) (index : Int) :
    g.tupleElement (φ.partner x) index = (h.tupleElement x index).map φ.partner := by
  rw [Heap.tupleElement, Heap.tupleElement, mirrors.tupleItems covered]
  cases h.tupleItems x with
  | error e => rfl
  | ok xs =>
    simp only [Except.map, bind, Except.bind, List.length_map]
    cases Position.element? index xs.length with
    | none => rfl
    | some i =>
      simp only [Option.bind_some, List.getElem?_map]
      cases xs[i]? <;> rfl

/-! ### Slices -/

theorem sliceBound (mirrors : φ.Mirrors h g) {bound : Option Handle} (covered : ∀ x ∈ bound, φ.covers x) :
    g.sliceBound (bound.map φ.partner) = (h.sliceBound bound).map (Option.map φ.partner) := by
  cases bound with
  | none => rfl
  | some x =>
    rw [Option.map_some, Heap.sliceBound, Heap.sliceBound, mirrors.tagOf (covered x rfl)]
    cases h.tagOf x with
    | error e => rfl
    | ok tag => cases tag <;> rfl

theorem boundValue (mirrors : φ.Mirrors h g) {bound : Option Handle} (covered : ∀ x ∈ bound, φ.covers x) (default : Int) :
    g.boundValue (bound.map φ.partner) default = h.boundValue bound default := by
  cases bound with
  | none => rfl
  | some x => exact congrArg (Except.map Int32.toInt) (mirrors.intValue (covered x rfl))

theorem sliceIndices (mirrors : φ.Mirrors h g) (covered : φ.covers x) (length : Nat) :
    g.sliceIndices (φ.partner x) length = h.sliceIndices x length := by
  rw [Heap.sliceIndices, Heap.sliceIndices, mirrors.sliceRecord covered]
  cases record : h.sliceRecord x with
  | error e => rfl
  | ok r =>
    have found := sliceRecord_eq_ok_iff.1 record
    have ref : ∀ y ∈ (Payload.slice r).refs, φ.covers y := fun y member => mirrors.covers_ref covered found member
    have start := mirrors.boundValue fun y bound => ref y (Payload.mem_refs_slice.2 (.inl bound))
    have stop := mirrors.boundValue fun y bound => ref y (Payload.mem_refs_slice.2 (.inr (.inl bound)))
    have step := mirrors.boundValue fun y bound => ref y (Payload.mem_refs_slice.2 (.inr (.inr bound)))
    simp only [Except.map, bind, Except.bind, start, stop, step]

/-! ### Sequences -/

theorem hasItems (mirrors : φ.Mirrors h g) (covered : φ.covers l) (has : h.HasItems l s xs) :
    g.HasItems (φ.partner l) (φ.partner s) (xs.map φ.partner) ∧ φ.covers s ∧ ∀ x ∈ xs, φ.covers x := by
  obtain ⟨record, refs⟩ := mirrors.content? covered has.record
  have storage := refs s (List.mem_singleton_self s)
  obtain ⟨items, elements⟩ := mirrors.content? storage has.storage
  refine ⟨⟨?_, items⟩, storage, elements⟩
  rw [record, List.length_map]
  rfl

theorem hasEntries (mirrors : φ.Mirrors h g) (covered : φ.covers d) (has : h.HasEntries d ks vs E) :
    g.HasEntries (φ.partner d) (φ.partner ks) (φ.partner vs) (E.map (Prod.map φ.partner φ.partner)) ∧
      φ.covers ks ∧ φ.covers vs ∧ ∀ e ∈ E, φ.covers e.1 ∧ φ.covers e.2 := by
  obtain ⟨record, refs⟩ := mirrors.content? covered has.record
  have keys := refs ks (by simp [Content.refs, Payload.refs, Payload.children])
  have vals := refs vs (by simp [Content.refs, Payload.refs, Payload.children])
  obtain ⟨firsts, first⟩ := mirrors.content? keys has.keys
  obtain ⟨seconds, second⟩ := mirrors.content? vals has.vals
  refine ⟨⟨?_, ?_, ?_⟩, keys, vals, fun e member => ⟨first _ (List.mem_map_of_mem member), second _ (List.mem_map_of_mem member)⟩⟩
  · rw [record, List.length_map]
    rfl
  · rw [firsts]
    simp [Content.map]
  · rw [seconds]
    simp [Content.map]

theorem segListItems (mirrors : φ.Mirrors h g) (covered : φ.covers s) (shown : h.content? s = some (.items xs)) :
    h.segListItems s = .ok xs ∧ g.segListItems (φ.partner s) = .ok (xs.map φ.partner) :=
  ⟨(segListItems_of_items shown).2, (segListItems_of_items (mirrors.content? covered shown).1).2⟩

theorem listItems (mirrors : φ.Mirrors h g) (covered : φ.covers l) :
    g.listItems (φ.partner l) = (h.listItems l).map (List.map φ.partner) := by
  cases record : h.listRecord l with
  | error e =>
    rw [Heap.listItems, Heap.listItems, mirrors.listRecord covered, record]
    rfl
  | ok r =>
    obtain ⟨xs, has⟩ := mirrors.sound.hasItems (listRecord_eq_ok_iff.1 record)
    rw [(mirrors.hasItems covered has).1.listItems, has.listItems]
    rfl

theorem sequenceItems (mirrors : φ.Mirrors h g) (covered : φ.covers x) :
    g.sequenceItems (φ.partner x) = (h.sequenceItems x).map (List.map φ.partner) := by
  obtain ⟨p, q, here, there, alike⟩ := mirrors.held covered
  rw [Heap.sequenceItems, Heap.sequenceItems, payload_ok here, payload_ok there]
  cases alike with
  | list => rfl
  | record =>
    cases p with
    | list r =>
      obtain ⟨xs, has⟩ := mirrors.sound.hasItems here
      obtain ⟨has', storage, -⟩ := mirrors.hasItems covered has
      obtain ⟨read, read'⟩ := mirrors.segListItems storage has.storage
      simp only [Payload.map, bind, Except.bind, read, read', Except.map]
    | _ => rfl

/-! ### Comparing -/

theorem facet (mirrors : φ.Mirrors h g) (covered : φ.covers x) :
    ∃ p q, h.find? x = some p ∧ g.find? (φ.partner x) = some q ∧
      (h.facet p).Alike (fun x y => φ.covers x ∧ y = φ.partner x) (g.facet q) := by
  obtain ⟨p, q, here, there, alike⟩ := mirrors.held covered
  have related : ∀ xs : List Handle, (∀ y ∈ xs, φ.covers y) →
      List.Forall₂ (fun x y => φ.covers x ∧ y = φ.partner x) xs (xs.map φ.partner) := by
    intro xs each
    rw [List.forall₂_map_right_iff, List.forall₂_same]
    exact fun y member => ⟨each y member, rfl⟩
  refine ⟨p, q, here, there, ?_⟩
  cases alike with
  | list => exact .own
  | record =>
    cases p with
    | none => exact .none
    | int v => exact .int v
    | str t => exact .str t
    | tuple xs => exact .tuple (related xs fun y member => mirrors.covers_ref covered here member)
    | list r =>
      obtain ⟨xs, has⟩ := mirrors.sound.hasItems here
      obtain ⟨has', storage, elements⟩ := mirrors.hasItems covered has
      obtain ⟨read, read'⟩ := mirrors.segListItems storage has.storage
      simp only [Payload.map, Heap.facet, read, read']
      exact .list (related xs elements)
    | _ => exact .own

theorem compare (mirrors : φ.Mirrors h g) (left : φ.covers x) (right : φ.covers y) :
    g.compare (φ.partner x) (φ.partner y) = h.compare x y := by
  have comparable : Comparable (fun x y => φ.covers x ∧ y = φ.partner x) h g := by
    refine ⟨?_, ?_⟩
    · rintro a _ b _ ⟨covered, rfl⟩ ⟨covered', rfl⟩
      exact ⟨congrArg φ.partner, mirrors.injective a b covered covered'⟩
    · rintro a _ ⟨covered, rfl⟩
      exact mirrors.facet covered
  exact (comparable.compare mirrors.sound mirrors.sound' ⟨left, rfl⟩ ⟨right, rfl⟩).symm

end Mirrors

end Pairing

/-! ### Printing -/

namespace Printing

variable {σ : Type} {element element' : Handle → SinkM σ Unit} {f : Handle → Handle}

theorem commaSeparated_map (sink : ByteSink σ) {xs : List Handle} (same : ∀ x ∈ xs, element' (f x) = element x) :
    commaSeparated sink element' (xs.map f) = commaSeparated sink element xs := by
  apply commaSeparated_congr
  rw [List.map_map]
  exact List.map_congr_left same

theorem entries_map (sink : ByteSink σ) {E : List (Handle × Handle)}
    (same : ∀ e ∈ E, element' (f e.1) = element e.1 ∧ element' (f e.2) = element e.2) :
    entries sink element' (E.map (Prod.map f f)) = entries sink element E := by
  induction E with
  | nil => rfl
  | cons e rest ih =>
    obtain ⟨key, value⟩ := e
    obtain ⟨first, second⟩ := same (key, value) List.mem_cons_self
    have here : entries.entry sink element' (f key) (f value) = entries.entry sink element key value := by
      rw [entries.entry, entries.entry, first, second]
    cases rest with
    | nil => exact here
    | cons next rest =>
      have later := ih fun z member => same z (List.mem_cons_of_mem _ member)
      simp only [List.map_cons, Prod.map, entries] at later ⊢
      rw [here, later]

theorem bound_map {bound : Option Handle} (same : ∀ x ∈ bound, element' (f x) = element x) :
    Printing.bound element' (bound.map f) = Printing.bound element bound := by
  cases bound with
  | none => rfl
  | some x => exact same x rfl

end Printing

namespace Pairing.Mirrors

open Heap Printing SinkM

variable {φ : Pairing} {h g : Heap} {x : Handle} {σ : Type}

/-- Printing an object and printing its partner write the same. -/
theorem printing (mirrors : φ.Mirrors h g) (sink : ByteSink σ) (levels : Nat) (nested : Bool) (covered : φ.covers x) :
    value g sink levels nested (φ.partner x) = value h sink levels nested x := by
  induction levels generalizing nested x with
  | zero => rfl
  | succ levels ih =>
    obtain ⟨p, q, here, there, alike⟩ := mirrors.held covered
    rw [value_succ (payload_ok here), value_succ (payload_ok there)]
    have inner : ∀ y, φ.covers y → value g sink levels true (φ.partner y) = value h sink levels true y :=
      fun y covered => ih true covered
    cases alike with
    | list length => simp only [node, length]
    | record =>
      have ref : ∀ y ∈ p.refs, φ.covers y := fun y member => mirrors.covers_ref covered here member
      cases p with
      | tuple xs =>
        have items : commaSeparated sink _ (xs.map φ.partner) = _ :=
          commaSeparated_map sink fun y member => inner y (ref y member)
        simp only [Payload.map, node, List.length_map, items]
      | list r =>
        obtain ⟨xs, has⟩ := mirrors.sound.hasItems here
        obtain ⟨has', storage, elements⟩ := mirrors.hasItems covered has
        obtain ⟨read, read'⟩ := mirrors.segListItems storage has.storage
        have items := commaSeparated_map sink fun y member => inner y (elements y member)
        simp only [Payload.map, node, read, read', ofExcept_bind, items]
      | dict r =>
        obtain ⟨E, has⟩ := mirrors.sound.hasEntries here
        obtain ⟨has', keys, vals, each⟩ := mirrors.hasEntries covered has
        obtain ⟨read, read'⟩ := mirrors.segListItems keys has.keys
        obtain ⟨load, load'⟩ := mirrors.segListItems vals has.vals
        have pairs := entries_map sink fun e member => ⟨inner _ (each e member).1, inner _ (each e member).2⟩
        have zipped : (E.map Prod.fst).zip (E.map Prod.snd) = E := by
          rw [List.zip_map']
          exact List.map_id'' (fun _ => rfl) E
        simp only [Payload.map, node, read, read', load, load', ofExcept_bind, List.zip_map, zipped, pairs]
      | slice r =>
        have start := bound_map fun y bound => inner y (ref y (Payload.mem_refs_slice.2 (.inl bound)))
        have stop := bound_map fun y bound => inner y (ref y (Payload.mem_refs_slice.2 (.inr (.inl bound))))
        have step := bound_map fun y bound => inner y (ref y (Payload.mem_refs_slice.2 (.inr (.inr bound))))
        simp only [Payload.map, node, start, stop, step]
      | function r | cls r | inst r =>
        simp only [Payload.map, node, mirrors.strText (ref r.name (by simp [Payload.refs, Payload.children]))]
      | _ => rfl

theorem render (mirrors : φ.Mirrors h g) (covered : φ.covers x) : g.render (φ.partner x) = h.render x := by
  rw [Heap.render, Heap.render, Heap.print, Heap.print, mirrors.printing _ _ _ covered]

end Pairing.Mirrors

end ChunkHeap

import ChunkHeap.Proofs.Chain.Updates

/-!
# The layout of a heap

In a heap in shape every object leads to live objects only, every segmented list
has a chain of its own, and every segment belongs to a chain. References are kept
apart from the links of chains: a reference never names a segment. So a segment is
reached only through its list (`Shaped.owner_reached`), and a collection keeps or
drops a list together with its chain.

`Heap.Shaped` survives each thing that operations do: a collection, a new object,
a payload rewritten, a chain changed.
-/

namespace ChunkHeap
set_option autoImplicit false

/-- What an object refers to, the links of chains aside. -/
def Payload.refs : Payload → List Handle
  | .seglist _ => []
  | .segment r => r.items
  | p => p.children

namespace Heap

variable {h g k : Heap} {x y z : Handle} {p q : Payload} {c c' d : Chain}

/-- A live object other than a segment: what may be stored in a container. -/
def Element (h : Heap) (x : Handle) : Prop :=
  ∃ p, h.find? x = some p ∧ p.tag ≠ .segment

instance (h : Heap) (x : Handle) : Decidable (h.Element x) :=
  decidable_of_iff ((h.find? x).any fun p => p.tag ≠ .segment) (by simp [Element, Option.any_eq_true])

/-- None of the handles names a segment. -/
def Unsegmented (h : Heap) (starts : List Handle) : Prop :=
  ∀ x ∈ starts, ∀ r, h.find? x ≠ some (.segment r)

/-- Live references, and segmented lists with chains in order and apart. -/
structure Shaped (h : Heap) : Prop where
  accounted : h.Accounted
  headed : h.Headed
  refs : ∀ x p, h.find? x = some p → ∀ y ∈ p.refs, h.Element y
  chains : ∀ x r, h.find? x = some (.seglist r) → ∃ c, h.Chained r c
  disjoint : ∀ x y c d, h.Carries x c → h.Carries y d → x ≠ y → ∀ s ∈ c.map Prod.fst, s ∉ d.map Prod.fst
  covered : ∀ s r, h.find? s = some (.segment r) → ∃ x c, h.Carries x c ∧ s ∈ c.map Prod.fst

theorem Element.live (element : h.Element x) : ∃ p, h.find? x = some p :=
  element.imp fun _ facts => facts.1

theorem Element.not_segment (element : h.Element x) (r : SegmentRecord) : h.find? x ≠ some (.segment r) := by
  obtain ⟨p, found, tag⟩ := element
  intro segment
  rw [found] at segment
  cases segment
  exact tag rfl

/-- Every edge of a live object leads to a live object. -/
theorem Shaped.edges (shaped : h.Shaped) (found : h.find? x = some p) (edge : y ∈ p.children) :
    ∃ q, h.find? y = some q := by
  have reference : y ∈ p.refs → ∃ q, h.find? y = some q := fun member =>
    (shaped.refs x p found y member).imp fun _ facts => facts.1
  cases p with
  | seglist r =>
    obtain ⟨c, chained⟩ := shaped.chains x r found
    have head : y ∈ r.head := by simpa [Payload.children] using edge
    rw [chained.head] at head
    obtain ⟨e, first, rfl⟩ := Option.map_eq_some_iff.1 head
    obtain ⟨s, live⟩ := chained.linked.segment (List.mem_map_of_mem (List.mem_of_mem_head? first))
    exact ⟨_, live⟩
  | segment r =>
    rcases List.mem_append.1 edge with held | link
    · exact reference held
    · obtain ⟨t, c, carries, member⟩ := shaped.covered x r found
      obtain ⟨s, live⟩ := carries.linked.segment
        (carries.linked.next_mem member found (t := y) (by simpa using link))
      exact ⟨_, live⟩
  | _ => exact reference edge

/-- What a list holds may be stored. -/
theorem Shaped.item_element (shaped : h.Shaped) (carries : h.Carries x c) (member : y ∈ (c.map Prod.snd).flatten) :
    h.Element y := by
  obtain ⟨s, -, r, segment, held⟩ := carries.linked.segment_of_item member
  exact shaped.refs s _ segment y held

/-- Two lists that share a segment are the same list. -/
theorem Shaped.same_list (shaped : h.Shaped) {s : Handle} (carries : h.Carries x c) (carries' : h.Carries y d)
    (left : s ∈ c.map Prod.fst) (right : s ∈ d.map Prod.fst) : x = y := by
  by_contra different
  exact shaped.disjoint x y c d carries carries' different s left right

/-- An edge to a segment of a chain comes from its list or from another segment of
the chain. -/
theorem Shaped.edge_to_segment (shaped : h.Shaped) {s : Handle} (carries : h.Carries x c) (member : s ∈ c.map Prod.fst)
    (found : h.find? y = some p) (edge : s ∈ p.children) : y = x ∨ y ∈ c.map Prod.fst := by
  obtain ⟨t, segment⟩ := carries.linked.segment member
  have reference : s ∉ p.refs := fun listed => (shaped.refs y p found s listed).not_segment t segment
  cases p with
  | seglist r =>
    obtain ⟨d, chained⟩ := shaped.chains y r found
    have head : s ∈ r.head := by simpa [Payload.children] using edge
    rw [chained.head] at head
    obtain ⟨e, first, rfl⟩ := Option.map_eq_some_iff.1 head
    exact .inl (shaped.same_list ⟨r, found, chained⟩ carries
      (List.mem_map_of_mem (List.mem_of_mem_head? first)) member)
  | segment r =>
    rcases List.mem_append.1 edge with held | link
    · exact absurd held reference
    · obtain ⟨z, d, carries', here⟩ := shaped.covered y r found
      have next := carries'.linked.next_mem here found (t := s) (by simpa using link)
      obtain rfl := shaped.same_list carries' carries next member
      rw [← carries'.unique carries]
      exact .inr here
  | _ => exact absurd edge reference

/-- A segment is reached only through its list. -/
theorem Shaped.owner_reached (shaped : h.Shaped) {starts : List Handle} (apart : h.Unsegmented starts) {s : Handle}
    (reached : h.arena.Reaches starts s) (carries : h.Carries x c) (member : s ∈ c.map Prod.fst) :
    h.arena.Reaches starts x := by
  induction reached with
  | @start s listed =>
    obtain ⟨r, segment⟩ := carries.linked.segment member
    exact absurd segment (apart s listed r)
  | @edge y s o before found edge ih =>
    have here : h.find? y = some o.payload := find?_eq_some_iff.2 ⟨o, found, rfl⟩
    rcases shaped.edge_to_segment carries member here edge with rfl | inside
    · exact before
    · exact ih inside

/-- A list that is reached leads to its segments and to its contents. -/
theorem Carries.reaches {starts : List Handle} (carries : h.Carries x c) (reached : h.arena.Reaches starts x) :
    (∀ s ∈ c.map Prod.fst, h.arena.Reaches starts s) ∧
      ∀ y ∈ (c.map Prod.snd).flatten, h.arena.Reaches starts y := by
  obtain ⟨r, found, chained⟩ := carries
  refine chained.linked.reaches fun s link => reaches_edge reached found ?_
  simp [Payload.children, chained.start, link]

theorem refs_subset_children (p : Payload) : p.refs ⊆ p.children := by
  cases p with
  | seglist r => exact List.nil_subset _
  | segment r => exact List.subset_append_left _ _
  | _ => exact fun _ member => member

/-- Live objects that are pinned pass a collection. -/
theorem Swept.element {pins : List Handle} (swept : Swept pins h g) (ok : h.Accounted) (element : h.Element x)
    (reached : h.arena.Reaches (h.collectionRoots pins) x) : g.Element x := by
  obtain ⟨p, found, tag⟩ := element
  exact ⟨p, (swept.find? ok reached).trans found, tag⟩

theorem Unsegmented.pinned {pins : List Handle} (apart : h.Unsegmented (h.collectionRoots []))
    (elements : ∀ x ∈ pins, h.Element x) : h.Unsegmented (h.collectionRoots pins) := by
  intro x member
  rcases List.mem_append.1 member with root | pin
  · exact apart x (List.mem_append_left _ root)
  · exact (elements x pin).not_segment

/-- A collection leaves a heap in shape. -/
theorem Shaped.swept {pins : List Handle} (shaped : h.Shaped) (apart : h.Unsegmented (h.collectionRoots pins))
    (swept : Swept pins h g) : g.Shaped := by
  have ok := shaped.accounted
  rcases swept with rfl | rfl
  · exact shaped
  · have swept : Swept pins h (h.collectWith pins).heap := .inr rfl
    have survived : ∀ {x p}, (h.collectWith pins).heap.find? x = some p →
        h.find? x = some p ∧ h.arena.Reaches (h.collectionRoots pins) x := (find?_collectWith ok.arena).1
    have back : ∀ {x c}, (h.collectWith pins).heap.Carries x c → h.Carries x c := by
      rintro x c ⟨r, found, chained⟩
      refine ⟨r, (survived found).1, chained.congr fun s member => ?_⟩
      obtain ⟨t, segment⟩ := chained.linked.segment member
      rw [segment, (survived segment).1]
    refine ⟨(swept.upkeep ok).accounted ok, (swept.upkeep ok).headed shaped.headed, ?_, ?_, ?_, ?_⟩
    · intro x p found y member
      obtain ⟨before, reached⟩ := survived found
      obtain ⟨q, live, tag⟩ := shaped.refs x p before y member
      have kept := swept.find? ok (reaches_edge reached before (refs_subset_children p member))
      exact ⟨q, kept.trans live, tag⟩
    · intro x r found
      obtain ⟨before, reached⟩ := survived found
      obtain ⟨c, chained⟩ := shaped.chains x r before
      exact ⟨c, (chained.swept before ok reached swept).2⟩
    · intro x y c d left right
      exact shaped.disjoint x y c d (back left) (back right)
    · intro s r found
      obtain ⟨before, reached⟩ := survived found
      obtain ⟨x, c, carries, member⟩ := shaped.covered s r before
      have owner := shaped.owner_reached apart reached carries member
      obtain ⟨r', record, chained⟩ := carries
      exact ⟨x, c, ⟨r', chained.swept record ok owner swept⟩, member⟩

/-! ### A chain changed -/

/-- What is live, and neither the list nor one of its segments, is untouched. -/
theorem Rechained.untouched (changed : Rechained x c h g c') (found : h.find? y = some p) (other : y ≠ x)
    (outside : y ∉ c.map Prod.fst) : y ∉ c'.map Prod.fst ∧ g.find? y = some p := by
  have away : y ∉ c'.map Prod.fst := by
    intro member
    rw [changed.fresh y member outside] at found
    cases found
  exact ⟨away, (changed.frame y other outside away).trans found⟩

/-- What is live afterwards, and neither the list nor one of its segments, was
there before. -/
theorem Rechained.was_there (changed : Rechained x c h g c') (found : g.find? y = some p) (other : y ≠ x)
    (away : y ∉ c'.map Prod.fst) : y ∉ c.map Prod.fst ∧ h.find? y = some p := by
  have outside : y ∉ c.map Prod.fst := by
    intro member
    rw [changed.gone y member away] at found
    cases found
  exact ⟨outside, (changed.frame y other outside away).symm.trans found⟩

theorem Rechained.element (changed : Rechained x c h g c') (carries : h.Carries x c) (element : h.Element y) :
    g.Element y := by
  obtain ⟨p, found, tag⟩ := element
  by_cases same : y = x
  · obtain ⟨r, here, -⟩ := changed.here
    exact ⟨_, same ▸ here, by simp [Payload.tag]⟩
  · exact ⟨p, (changed.untouched found same (carries.linked.ne_segment found tag)).2, tag⟩

/-- A list with other segments keeps its chain. -/
theorem Rechained.carries_apart (changed : Rechained x c h g c') (carries : h.Carries x c) (other : y ≠ x)
    (carries' : h.Carries y d) (apart : ∀ s ∈ d.map Prod.fst, s ∉ c.map Prod.fst) : g.Carries y d := by
  obtain ⟨r, found, chained⟩ := carries'
  have record := changed.untouched found other (carries.linked.ne_segment found (by simp [Payload.tag]))
  refine ⟨r, record.2, chained.congr fun s member => ?_⟩
  obtain ⟨t, segment⟩ := chained.linked.segment member
  obtain ⟨q, list, -⟩ := carries
  rw [(changed.untouched segment (chained.linked.ne_list list member) (apart s member)).2, segment]

/-- The other lists keep their chains. -/
theorem Rechained.carries_other (changed : Rechained x c h g c') (shaped : h.Shaped) (carries : h.Carries x c)
    (other : y ≠ x) (carries' : h.Carries y d) : g.Carries y d :=
  changed.carries_apart carries other carries' (shaped.disjoint y x d c carries' carries other)

theorem Rechained.carries_back (changed : Rechained x c h g c') (shaped : h.Shaped) (carries : h.Carries x c)
    (other : y ≠ x) (carries' : g.Carries y d) : h.Carries y d := by
  obtain ⟨r, found, chained⟩ := carries'
  have away := changed.here.linked.ne_segment found (by simp [Payload.tag])
  have before := (changed.was_there found other away).2
  obtain ⟨e, chained'⟩ := shaped.chains y r before
  obtain rfl := (changed.carries_other shaped carries other ⟨r, before, chained'⟩).unique ⟨r, found, chained⟩
  exact ⟨r, before, chained'⟩

/-- A heap stays in shape when one chain changes and what it holds may be stored. -/
theorem Shaped.rechained (shaped : h.Shaped) (carries : h.Carries x c) (changed : Rechained x c h g c')
    (items : ∀ y ∈ (c'.map Prod.snd).flatten, h.Element y) : g.Shaped where
  accounted := changed.accounted shaped.accounted
  headed := changed.headed shaped.headed
  refs := by
    intro y p found z member
    refine changed.element carries ?_
    by_cases inside : y ∈ c'.map Prod.fst
    · obtain ⟨r, segment⟩ := changed.here.linked.segment inside
      rw [segment] at found
      cases found
      exact items z (changed.here.linked.items_mem inside segment member)
    · by_cases same : y = x
      · obtain ⟨r, here, -⟩ := changed.here
        rw [same, here] at found
        cases found
        cases member
      · exact shaped.refs y p (changed.was_there found same inside).2 z member
  chains := by
    intro y r found
    by_cases same : y = x
    · obtain ⟨r', here, chained⟩ := changed.here
      rw [same, here] at found
      cases found
      exact ⟨c', chained⟩
    · have away := changed.here.linked.ne_segment found (by simp [Payload.tag])
      have before := (changed.was_there found same away).2
      obtain ⟨d, chained⟩ := shaped.chains y r before
      obtain ⟨r', found', chained'⟩ := changed.carries_other shaped carries same ⟨r, before, chained⟩
      rw [found] at found'
      cases found'
      exact ⟨d, chained'⟩
  disjoint := by
    -- a segment of the changed chain and of another one would be live before, in both
    have apart : ∀ y d, y ≠ x → g.Carries y d → ∀ s ∈ c'.map Prod.fst, s ∉ d.map Prod.fst := by
      intro y d other carries' s left right
      have before := changed.carries_back shaped carries other carries'
      obtain ⟨r, segment⟩ := before.linked.segment right
      by_cases inside : s ∈ c.map Prod.fst
      · exact shaped.disjoint y x d c before carries other s right inside
      · rw [changed.fresh s left inside] at segment
        cases segment
    intro y z d e left right different s
    by_cases same : y = x
    · subst same
      rw [left.unique changed.here]
      exact apart z e different.symm right s
    · by_cases same' : z = x
      · subst same'
        rw [right.unique changed.here]
        exact fun inside member => apart y d same left s member inside
      · exact shaped.disjoint y z d e (changed.carries_back shaped carries same left)
          (changed.carries_back shaped carries same' right) different s
  covered := by
    intro s r found
    by_cases inside : s ∈ c'.map Prod.fst
    · exact ⟨x, c', changed.here, inside⟩
    · have other : s ≠ x := by
        rintro rfl
        obtain ⟨r', here, -⟩ := changed.here
        rw [here] at found
        cases found
      obtain ⟨outside, before⟩ := changed.was_there found other inside
      obtain ⟨y, d, carries', member⟩ := shaped.covered s r before
      have different : y ≠ x := by
        rintro rfl
        exact outside (carries'.unique carries ▸ member)
      exact ⟨y, d, changed.carries_other shaped carries different carries', member⟩

/-! ### An object entered or rewritten -/

/-- When no list, no segment and nothing an element was has changed, a heap stays in
shape as long as the other references may be stored. -/
theorem Shaped.same_chains (shaped : h.Shaped) (upkeep : Upkeep h g)
    (lists : ∀ x r, g.find? x = some (.seglist r) → h.find? x = some (.seglist r) ∨ r = {})
    (segments : ∀ s r, g.find? s = some (.segment r) ↔ h.find? s = some (.segment r))
    (kept : ∀ x r, h.find? x = some (.seglist r) → g.find? x = some (.seglist r))
    (refs : ∀ x p, g.find? x = some p → ∀ y ∈ p.refs, g.Element y) : g.Shaped := by
  have onward : ∀ {x r c}, h.find? x = some (.seglist r) → h.Chained r c → g.Chained r c := by
    intro x r c _ chained
    refine chained.congr fun s member => ?_
    obtain ⟨t, segment⟩ := chained.linked.segment member
    rw [segment, (segments s t).2 segment]
  have empty : ∀ {c}, g.Chained {} c → c = [] := by
    intro c chained
    exact chained.linked.unique trivial (chained.start.symm.trans rfl)
  have back : ∀ {x c}, g.Carries x c → h.Carries x c ∨ c = [] := by
    rintro x c ⟨r, found, chained⟩
    rcases lists x r found with before | rfl
    · obtain ⟨d, chained'⟩ := shaped.chains x r before
      obtain rfl := chained.linked.unique (onward before chained').linked (chained.start.symm.trans chained'.start)
      exact .inl ⟨r, before, chained'⟩
    · exact .inr (empty chained)
  refine ⟨upkeep.accounted shaped.accounted, upkeep.headed shaped.headed, refs, ?_, ?_, ?_⟩
  · intro x r found
    rcases lists x r found with before | rfl
    · obtain ⟨c, chained⟩ := shaped.chains x r before
      exact ⟨c, onward before chained⟩
    · exact ⟨[], trivial, List.nodup_nil, trivial, rfl, rfl, rfl, by simp⟩
  · intro x y c d left right different s member
    rcases back left with left | rfl
    · rcases back right with right | rfl
      · exact shaped.disjoint x y c d left right different s member
      · exact List.not_mem_nil
    · cases member
  · intro s r found
    obtain ⟨x, c, ⟨r', before, chained⟩, member⟩ := shaped.covered s r ((segments s r).1 found)
    exact ⟨x, c, ⟨r', kept x r' before, onward before chained⟩, member⟩

/-- A new object, neither a segment nor a list with contents. -/
theorem Shaped.entered (shaped : h.Shaped) (entered : Entered x p h g) (refs : ∀ y ∈ p.refs, h.Element y)
    (list : ∀ r, p = .seglist r → r = {}) (segment : p.tag ≠ .segment) : g.Shaped := by
  have element : ∀ {y}, h.Element y → g.Element y := by
    rintro y ⟨q, found, tag⟩
    exact ⟨q, (entered.live found).2, tag⟩
  have old : ∀ {y q}, g.find? y = some q → (y = x ∧ q = p) ∨ h.find? y = some q := by
    intro y q found
    by_cases same : y = x
    · subst same
      rw [entered.here] at found
      exact .inl ⟨rfl, (Option.some.inj found).symm⟩
    · exact .inr ((entered.other same).symm.trans found)
  refine shaped.same_chains entered.toUpkeep ?_ ?_ ?_ ?_
  · intro y r found
    rcases old found with ⟨-, same⟩ | before
    · exact .inr (list r same.symm)
    · exact .inl before
  · intro s r
    refine ⟨fun found => ?_, fun found => (entered.live found).2⟩
    rcases old found with ⟨-, same⟩ | before
    · exact absurd (same ▸ rfl) segment
    · exact before
  · exact fun y r found => (entered.live found).2
  · intro y q found z member
    rcases old found with ⟨-, rfl⟩ | before
    · exact element (refs z member)
    · exact element (shaped.refs y q before z member)

/-- An object, neither a segment nor a segmented list, given another payload of its
kind. -/
theorem Shaped.rewritten (shaped : h.Shaped) (found : h.find? x = some p) (edited : Edited (· = x) h g)
    (written : g.find? x = some q) (refs : ∀ y ∈ q.refs, h.Element y) (tag : q.tag = p.tag)
    (list : p.tag ≠ .seglist) (segment : p.tag ≠ .segment) : g.Shaped := by
  have element : ∀ {y}, h.Element y → g.Element y := by
    rintro y ⟨r, live, other⟩
    by_cases same : y = x
    · exact ⟨q, same ▸ written, tag ▸ segment⟩
    · exact ⟨r, (edited.outside y same).trans live, other⟩
  have chain : ∀ y r, (r.tag = .seglist ∨ r.tag = .segment) → (g.find? y = some r ↔ h.find? y = some r) := by
    intro y r kind
    by_cases same : y = x
    · subst same
      rw [written, found, Option.some.injEq, Option.some.injEq]
      refine ⟨fun eq => ?_, fun eq => ?_⟩
      · rw [← eq, tag] at kind
        tauto
      · rw [← eq] at kind
        tauto
    · rw [edited.outside y same]
  refine shaped.same_chains edited.toUpkeep ?_ ?_ ?_ ?_
  · exact fun y r live => .inl ((chain y _ (.inl rfl)).1 live)
  · exact fun s r => chain s _ (.inr rfl)
  · exact fun y r live => (chain y _ (.inl rfl)).2 live
  · intro y r live z member
    by_cases same : y = x
    · subst same
      rw [written] at live
      cases live
      exact element (refs z member)
    · exact element (shaped.refs y r ((edited.outside y same).symm.trans live) z member)

end Heap

end ChunkHeap

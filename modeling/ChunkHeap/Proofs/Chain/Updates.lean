import ChunkHeap.Proofs.Chain.Ripple

/-!
# Updates of a segmented list

Each operation on a segmented list takes its chain to another one, with the
contents changed as the operation says. `Heap.Rechained` is what they have in
common: the list has the new chain, segments that left the chain are released,
segments that joined it come from free slots, and no other object is touched.

Where an operation allocates, a collection may come first. `Heap.Swept` speaks of
that step; a list that the roots lead to passes it unchanged.
-/

namespace ChunkHeap
set_option autoImplicit false

namespace Heap

variable {h g k : Heap} {x : Handle} {c c' : Chain}

/-- From `h` to `g` the chain of the list `x` changes from `c` to `c'`. Chains grow
and shrink at their ends. -/
structure Rechained (x : Handle) (c : Chain) (h g : Heap) (c' : Chain) : Prop extends Steady h g where
  here : g.Carries x c'
  segments : c.map Prod.fst <+: c'.map Prod.fst ∨ c'.map Prod.fst <+: c.map Prod.fst
  frame : ∀ y, y ≠ x → y ∉ c.map Prod.fst → y ∉ c'.map Prod.fst → g.find? y = h.find? y
  gone : ∀ s ∈ c.map Prod.fst, s ∉ c'.map Prod.fst → g.find? s = none
  fresh : ∀ s ∈ c'.map Prod.fst, s ∉ c.map Prod.fst → h.find? s = none

/-- From `g` to `k` a segment may have been taken from the free slots: `t`. -/
structure Reserved (t : Option Handle) (g k : Heap) : Prop extends Steady g k where
  fresh : ∀ s ∈ t, g.find? s = none
  view : ∀ y, y ∉ t → k.find? y = g.find? y

theorem Reserved.refl (g : Heap) : Reserved none g g :=
  { Steady.refl g with fresh := by simp, view := fun _ _ => rfl }

theorem Entered.reserved {s : Handle} {p : Payload} (entered : Entered s p g k) : Reserved (some s) g k :=
  { entered.toSteady with
    fresh := by
      intro t same
      obtain rfl : s = t := by simpa using same
      exact entered.fresh
    view := fun y different => entered.other (by simpa [eq_comm] using different) }

/-- Edits of a list and its segments that keep these segments and let a reserved
one join them. -/
theorem Reserved.rechained {t : Option Handle} (reserved : Reserved t h g)
    (edited : Edited (fun y => y = x ∨ y ∈ c'.map Prod.fst) g k) (here : k.Carries x c')
    (segments : c'.map Prod.fst = c.map Prod.fst ++ t.toList) : Rechained x c h k c' :=
  { reserved.toSteady.trans edited.toSteady with
    here := here
    segments := .inl ⟨_, segments.symm⟩
    frame := fun y other _ outside => by
      rw [edited.outside y (by simp [other, outside]), reserved.view y]
      rw [segments, List.mem_append, not_or, Option.mem_toList] at outside
      exact outside.2
    gone := fun s member missing => absurd (by rw [segments]; exact List.mem_append_left _ member) missing
    fresh := fun s member missing => by
      rw [segments, List.mem_append, Option.mem_toList] at member
      exact reserved.fresh s (member.resolve_left missing) }

/-- Edits of a list and its segments that keep these segments. -/
theorem Edited.rechained (edited : Edited (fun y => y = x ∨ y ∈ c.map Prod.fst) h g) (here : g.Carries x c')
    (segments : c'.map Prod.fst = c.map Prod.fst) : Rechained x c h g c' :=
  (Reserved.refl h).rechained (segments ▸ edited) here (by simp [segments])

theorem Rechained.after_edits {d : Chain} (edited : Edited (fun y => y = x ∨ y ∈ c.map Prod.fst) h g)
    (changed : Rechained x d g k c') (segments : d.map Prod.fst = c.map Prod.fst) : Rechained x c h k c' :=
  { edited.toSteady.trans changed.toSteady with
    here := changed.here
    segments := segments ▸ changed.segments
    frame := fun y other outside away => by
      rw [changed.frame y other (segments ▸ outside) away, edited.outside y (by simp [other, outside])]
    gone := fun s member missing => changed.gone s (segments ▸ member) missing
    fresh := fun s member missing => (edited.live s).1 (changed.fresh s member (segments ▸ missing)) }

/-- A cursor may be moved to any segment of the chain. -/
theorem Chained.moved {chain : Chain} {r : SegListRecord} {n : Nat} {seg : Handle} (chained : h.Chained r chain)
    (found : h.find? x = some (.seglist r)) (edited : Edited (· = x) h g) (place : (chain[n]?).map Prod.fst = some seg) :
    g.Chained { r with cursor := some (n, seg) } chain :=
  { chained.congr fun s member => edited.outside s (chained.linked.ne_list found member) with
    head := chained.head
    tail := chained.tail
    length := chained.length
    cursor := by
      intro n' seg' known
      cases known
      exact place }

/-- A list that the roots or the pins lead to passes a collection with its chain. -/
theorem Chained.swept {r : SegListRecord} {pins : List Handle} (chained : h.Chained r c)
    (found : h.find? x = some (.seglist r)) (ok : h.Accounted)
    (reached : h.arena.Reaches (h.collectionRoots pins) x) (swept : Swept pins h g) :
    g.find? x = some (.seglist r) ∧ g.Chained r c := by
  have segments := (chained.linked.reaches fun s link => reaches_edge reached found (by
    simp [Payload.children, chained.start, link])).1
  exact ⟨(swept.find? ok reached).trans found, chained.congr fun s member => swept.find? ok (segments s member)⟩

/-- What an operation that adds the reference `x` to a list comes to. Either the
contents are `xs`, or the segments are full, there is no room for another one and
nothing but a collection has happened. -/
inductive Grown (list x : Handle) (c : Chain) (xs : List Handle) (h : Heap) : Except Error Unit × Machine → Prop
  | failed {e : Error} {m' : Machine} (swept : Swept [x] h m'.heap) (memory : e.kind = .memory)
      (full : (c.map Prod.snd).flatten.length % segmentCapacity = 0) (refused : ¬ m'.heap.Admits (Payload.segment {}).chunkBytes) :
      Grown list x c xs h (.error e, m')
  | grown {g : Heap} {m' : Machine} {c' : Chain} (swept : Swept [x] h g) (changed : Rechained list c g m'.heap c')
      (items : (c'.map Prod.snd).flatten = xs) : Grown list x c xs h (.ok (), m')

end Heap

namespace SegList

open HeapM Heap

variable {m : Machine} {list : Handle} {r : SegListRecord} {c : Chain} {i : Nat}

/-- Locating a position: the segment that holds it, with the chain in front of it
and behind. The list is the only object written. -/
theorem locate_cut (found : m.heap.find? list = some (.seglist r)) (chained : m.heap.Chained r c)
    (inside : i < r.length) :
    ∃ front seg items back m' r', c = front ++ (seg, items) :: back ∧
      (front.map Prod.snd).flatten.length + i % segmentCapacity = i ∧ i % segmentCapacity < items.length ∧
      AllFull (front.map Prod.snd) ∧ (locate list i).run m = (.ok (seg, i % segmentCapacity), m') ∧
      Edited (· = list) m.heap m'.heap ∧ m'.heap.find? list = some (.seglist r') ∧ m'.heap.Chained r' c := by
  obtain ⟨front, seg, items, back, rfl, count, position, offset, full⟩ := chained.cut inside
  have here : (front ++ (seg, items) :: back)[i / segmentCapacity]? = some (seg, items) := by simp [← count]
  obtain ⟨m', located, edited, found'⟩ := locate_spec found chained.linked chained.head chained.cursor inside here
  exact ⟨front, seg, items, back, m', _, rfl, position, offset, full, located, edited, found',
    chained.moved found edited (by rw [here]; rfl)⟩

/-- A position within the length holds the reference that the contents have there. -/
theorem get_spec (found : m.heap.find? list = some (.seglist r)) (chained : m.heap.Chained r c)
    (inside : i < r.length) :
    ∃ x m', (c.map Prod.snd).flatten[i]? = some x ∧ (get list i).run m = (.ok x, m') ∧
      Rechained list c m.heap m'.heap c := by
  obtain ⟨front, seg, items, back, m', r', rfl, position, offset, -, located, edited, found', chained'⟩ :=
    locate_cut found chained inside
  have here := (linked_append.1 chained'.linked).2.1
  refine ⟨items[i % segmentCapacity], m', ?_, ?_, ?_⟩
  · rw [List.map_append, List.flatten_append, List.getElem?_append_right (by omega),
      show i - (front.map Prod.snd).flatten.length = i % segmentCapacity by omega, List.map_cons, List.flatten_cons,
      List.getElem?_append_left offset, List.getElem?_eq_getElem offset]
  · rw [get, run_bind_ok located, run_bind_ok (run_inspect_ok (segmentRecord_ok here))]
    simp only [List.getElem?_eq_getElem offset]
    rfl
  · exact (edited.mono fun _ same => .inl same).rechained ⟨r', found', chained'⟩ rfl

/-- Storing at a position replaces what the contents have there. -/
theorem set_spec (x : Handle) (found : m.heap.find? list = some (.seglist r)) (chained : m.heap.Chained r c)
    (inside : i < r.length) :
    ∃ m' c', (set list i x).run m = (.ok (), m') ∧ Rechained list c m.heap m'.heap c' ∧
      (c'.map Prod.snd).flatten = (c.map Prod.snd).flatten.set i x := by
  obtain ⟨front, seg, items, back, m₁, r', rfl, position, offset, full, located, edited, found', chained'⟩ :=
    locate_cut found chained inside
  have here := (linked_append.1 chained'.linked).2.1
  have apart := (chained'.linked.ne_list found' (s := seg) (by simp)).symm
  obtain ⟨m', wrote, edited', written⟩ :=
    modifySegment_spec (fun s => { s with items := s.items.set (i % segmentCapacity) x }) here
  refine ⟨m', front ++ (seg, items.set (i % segmentCapacity) x) :: back, ?_, ?_, ?_⟩
  · rw [set, run_bind_ok located, run_bind_ok (run_inspect_ok (segmentRecord_ok here)), if_pos offset, wrote]
  · refine Edited.rechained (Edited.trans (edited.mono ?_) (edited'.mono ?_)) ⟨r', ?_, ?_⟩ (by simp)
    · exact fun _ same => .inl same
    · exact fun _ same => .inr (by simp [same])
    · exact (edited'.outside list apart).trans found'
    · have sizes : ((front ++ (seg, items) :: back).map Prod.snd).map List.length =
          ((front ++ (seg, items.set (i % segmentCapacity) x) :: back).map Prod.snd).map List.length := by simp
      have whole := congrArg List.sum sizes
      rw [← List.length_flatten, ← List.length_flatten] at whole
      exact chained'.renew (by simp) (chained'.linked.write chained'.distinct edited' written) (t := none) (by simp) (by simp)
        (chained'.packed.congr sizes) rfl rfl (chained'.length.trans whole) (.inl rfl)
  · rw [List.map_append, List.map_append, List.flatten_append, List.flatten_append, List.map_cons, List.map_cons,
      List.flatten_cons, List.flatten_cons, List.set_append_right _ _ (by omega),
      show i - (front.map Prod.snd).flatten.length = i % segmentCapacity by omega, List.set_append_left _ _ offset]

/-- Releasing the last segment of a chain that has been ended before it. -/
theorem freeChunk_rechained {r' : SegListRecord} {front : Chain} {last : Handle} {left : List Handle} {h : Heap}
    (edited : Edited (fun y => y = list ∨ y ∈ front.map Prod.fst) h m.heap)
    (found : m.heap.find? list = some (.seglist r')) (chained : m.heap.Chained r' front)
    (segment : m.heap.find? last = some (.segment { items := left })) (fresh : last ∉ front.map Prod.fst) :
    ∃ m', (freeChunk last).run m = (.ok (), m') ∧ Rechained list (front ++ [(last, left)]) h m'.heap front := by
  obtain ⟨m', released, steady, view⟩ := freeChunk_live segment
  have apart : last ≠ list := by rintro rfl; simp [found] at segment
  refine ⟨m', released, { edited.toSteady.trans steady with
    here := ⟨r', ?_, ?_⟩, segments := .inr (by simp), frame := ?_, gone := ?_, fresh := ?_ }⟩
  · rw [view, if_neg apart, found]
  · exact chained.congr fun s member => by rw [view, if_neg (ne_of_mem_of_not_mem member fresh).symm]
  · intro y other outside away
    have different : last ≠ y := fun same => outside (by simp [same])
    rw [view, if_neg different, edited.outside y (by simp [other, away])]
  · intro s member missing
    obtain rfl : last = s := by
      rw [List.map_append, List.mem_append] at member
      rcases member with inside | inside
      · exact absurd inside missing
      · exact (List.mem_singleton.1 inside).symm
    rw [view, if_pos rfl]
  · intro s member missing
    exact absurd (by simp [member]) missing

/-- Ending the chain before an empty last segment. The list is in order then,
without that segment. -/
theorem trimChain_spec {last : Handle} (found : m.heap.find? list = some (.seglist r))
    (linked : m.heap.Linked none (c ++ [(last, [])])) (distinct : ((c ++ [(last, [])]).map Prod.fst).Nodup)
    (full : AllFull (c.map Prod.snd)) (head : r.head = (c ++ [(last, [])]).head?.map Prod.fst)
    (length : r.length = (c.map Prod.snd).flatten.length) (cursor : r.cursor = none) :
    ∃ m' r', (trimChain list r.length).run m = (.ok (), m') ∧
      Edited (fun y => y = list ∨ y ∈ c.map Prod.fst) m.heap m'.heap ∧
      m'.heap.find? list = some (.seglist r') ∧ m'.heap.Chained r' c := by
  have count : r.length = segmentCapacity * c.length := by rw [length, full.length_flatten, List.length_map]
  rcases List.eq_nil_or_concat' c with rfl | ⟨front, ⟨newTail, items⟩, rfl⟩
  · obtain ⟨m', wrote, edited, found'⟩ := modifyRecord_spec (fun r => { r with head := none, tail := none }) found
    refine ⟨m', _, ?_, edited.mono fun _ same => .inl same, found', ?_⟩
    · rw [trimChain, if_pos (show r.length = 0 from count), wrote]
    · exact ⟨trivial, List.nodup_nil, trivial, rfl, rfl, length, by simp [cursor]⟩
  · have index : (r.length - 1) / segmentCapacity = front.length := by
      simp only [List.length_append, List.length_singleton, segmentCapacity_eq] at count ⊢
      omega
    have inside : r.length - 1 < r.length := by
      simp only [List.length_append, List.length_singleton, segmentCapacity_eq] at count
      omega
    have here : (front ++ [(newTail, items)] ++ [(last, [])])[(r.length - 1) / segmentCapacity]? =
        some (newTail, items) := by simp [index]
    have apart : newTail ≠ list := linked.ne_list found (by simp)
    obtain ⟨fresh, distinct'⟩ : newTail ∉ front.map Prod.fst ∧ ((front ++ [(newTail, items)]).map Prod.fst).Nodup := by
      rw [List.map_append, List.nodup_append] at distinct
      refine ⟨fun member => ?_, distinct.1⟩
      have := distinct.1
      rw [List.map_append, List.nodup_append] at this
      exact this.2.2 newTail member newTail (by simp) rfl
    -- the cursor moves to the last full segment, which loses its link and becomes the tail
    obtain ⟨m₁, located, edited₁, found₁⟩ := locate_spec found linked head (by simp [cursor]) inside here
    have linked₁ := (linked_append.1 (linked.edited edited₁ fun s member => linked.ne_list found member)).1
    have segment₁ := (linked_append.1 linked₁).2.1
    obtain ⟨m₂, cut, edited₂, written⟩ := modifySegment_spec (fun s => { s with next := none }) segment₁
    have linked₂ := linked₁.relink fresh edited₂ written
    have found₂ := (edited₂.outside list apart.symm).trans found₁
    obtain ⟨m₃, ended, edited₃, found₃⟩ := modifyRecord_spec (fun r => { r with tail := some newTail }) found₂
    have linked₃ := linked₂.edited edited₃ fun s member => linked₂.ne_list found₂ member
    refine ⟨m₃, _, ?_, ?_, found₃, ?_⟩
    · rw [trimChain, if_neg (by omega), run_bind_ok located, run_bind_ok cut]
      exact ended
    · refine ((edited₁.mono ?_).trans (edited₂.mono ?_)).trans (edited₃.mono ?_)
      · exact fun _ same => .inl same
      · exact fun _ same => .inr (by simp [same])
      · exact fun _ same => .inl same
    · refine ⟨linked₃, distinct', full.packed, ?_, by simp, length, ?_⟩
      · rw [show (_ : SegListRecord).head = r.head from rfl, head]
        cases front <;> rfl
      · intro n seg known
        cases known
        simp [index]

/-- Full segments followed by one that may be empty: an empty one is taken out of
the chain and released, and the list is in order. -/
theorem dropEmptyTail_spec {last : Handle} {left : List Handle} (found : m.heap.find? list = some (.seglist r))
    (linked : m.heap.Linked none (c ++ [(last, left)])) (distinct : ((c ++ [(last, left)]).map Prod.fst).Nodup)
    (full : AllFull (c.map Prod.snd)) (short : left.length ≤ segmentCapacity)
    (head : r.head = (c ++ [(last, left)]).head?.map Prod.fst) (tail : r.tail = some last)
    (length : r.length = ((c ++ [(last, left)]).map Prod.snd).flatten.length) (cursor : r.cursor = none) :
    ∃ m' c', (dropEmptyTail list last r.length).run m = (.ok (), m') ∧
      Rechained list (c ++ [(last, left)]) m.heap m'.heap c' ∧
      (c'.map Prod.snd).flatten = ((c ++ [(last, left)]).map Prod.snd).flatten := by
  have segment : m.heap.find? last = some (.segment { items := left }) := (linked_append.1 linked).2.1
  have fresh : last ∉ c.map Prod.fst := by
    rw [List.map_append, List.nodup_append] at distinct
    exact fun member => distinct.2.2 last member last (by simp) rfl
  by_cases empty : left = []
  · subst empty
    have whole : ((c ++ [(last, [])]).map Prod.snd).flatten = (c.map Prod.snd).flatten := by simp
    obtain ⟨m₁, r', trimmed, edited, found', chained⟩ :=
      trimChain_spec found linked distinct full head (length.trans (congrArg List.length whole)) cursor
    have apart : ¬ (last = list ∨ last ∈ c.map Prod.fst) := by
      rintro (same | member)
      · exact linked.ne_list found (by simp) same
      · exact fresh member
    obtain ⟨m', released, changed⟩ :=
      freeChunk_rechained edited found' chained ((edited.outside last apart).trans segment) fresh
    refine ⟨m', c, ?_, changed, whole.symm⟩
    rw [dropEmptyTail, run_bind_ok (run_inspect_ok (segmentRecord_ok segment)), if_pos rfl, run_bind_ok trimmed]
    exact released
  · have some_ : 0 < left.length := List.length_pos_iff.2 empty
    refine ⟨m, c ++ [(last, left)], ?_, ?_, rfl⟩
    · rw [dropEmptyTail, run_bind_ok (run_inspect_ok (segmentRecord_ok segment)), if_neg empty]
      rfl
    · refine (Edited.refl _ _).rechained ⟨r, found, ?_⟩ rfl
      refine ⟨linked, distinct, ?_, head, by simpa using tail, length, by simp [cursor]⟩
      rw [List.map_append]
      exact packed_snoc_iff.2 ⟨full, some_, short⟩

/-- Taking a reference out of a segment and closing the gap: the segments stay,
and only the last one may be less than full. -/
theorem closeGap_spec {front back : Chain} {seg : Handle} {items : List Handle} {offset : Nat}
    (linked : m.heap.Linked none (front ++ (seg, items) :: back))
    (distinct : ((front ++ (seg, items) :: back).map Prod.fst).Nodup)
    (packed : Packed ((front ++ (seg, items) :: back).map Prod.snd)) (inside : offset < items.length) :
    ∃ m₁ m₂ c' last left,
      (modifySegment seg fun s => { s with items := s.items.eraseIdx offset }).run m = (.ok (), m₁) ∧
      (pullAlong (m₁.heap.arena.slots.size + 1) seg).run m₁ = (.ok last, m₂) ∧
      Edited (· ∈ (front ++ (seg, items) :: back).map Prod.fst) m.heap m₂.heap ∧
      m₂.heap.Linked none (c' ++ [(last, left)]) ∧
      (c' ++ [(last, left)]).map Prod.fst = (front ++ (seg, items) :: back).map Prod.fst ∧
      ((c' ++ [(last, left)]).map Prod.snd).flatten =
        (front.map Prod.snd).flatten ++ (items.eraseIdx offset ++ (back.map Prod.snd).flatten) ∧
      AllFull (c'.map Prod.snd) ∧ left.length < segmentCapacity := by
  have names : (front ++ (seg, items.eraseIdx offset) :: back).map Prod.fst =
      (front ++ (seg, items) :: back).map Prod.fst := by simp
  rw [List.map_append] at packed
  obtain ⟨full, packed⟩ := (packed_append_iff (by simp)).1 packed
  -- the segment is a reference short
  obtain ⟨m₁, wrote, edited₁, written⟩ :=
    modifySegment_spec (fun s => { s with items := s.items.eraseIdx offset }) (linked_append.1 linked).2.1
  have linked₁ := linked.write distinct edited₁ written
  rw [← names] at distinct
  have enough : back.length < m₁.heap.arena.slots.size + 1 := by
    have bound := linked₁.length_le distinct
    simp only [List.length_append, List.length_cons] at bound
    omega
  have gap : Packed ((items[offset] :: items.eraseIdx offset) :: back.map Prod.snd) := by
    refine packed.congr ?_
    simp [List.length_eraseIdx_of_lt inside]
    omega
  rw [List.map_append, List.nodup_append] at distinct
  obtain ⟨-, distinct', apart⟩ := distinct
  -- the gap moves to the end of the chain
  obtain ⟨m₂, mid, last, left, pulled, edited₂, linked₂, segments, contents, filled, short⟩ :=
    run_pullAlong _ (linked_append.1 linked₁).2 distinct' gap enough
  have outside : ∀ s ∈ front.map Prod.fst, m₂.heap.find? s = m₁.heap.find? s :=
    fun s member => edited₂.outside s fun later => apart s member s later rfl
  refine ⟨m₁, m₂, front ++ mid, last, left, wrote, pulled, ?_, ?_, ?_, ?_, ?_, short⟩
  · refine (edited₁.mono ?_).trans (edited₂.mono ?_)
    · intro s same
      simp [same]
    · intro s member
      rw [← names, List.map_append]
      exact List.mem_append_right _ member
  · rw [List.append_assoc]
    exact linked₁.splice outside linked₂ (Chain.start_congr segments none)
  · rw [List.append_assoc, List.map_append, segments]
    simp
  · rw [List.append_assoc, List.map_append, List.flatten_append, contents]
    simp
  · rw [List.map_append]
    exact full.append filled

/-- Removing at a position takes out what the contents have there. -/
theorem remove_spec (found : m.heap.find? list = some (.seglist r)) (chained : m.heap.Chained r c)
    (inside : i < r.length) :
    ∃ m' c', (remove list i).run m = (.ok (), m') ∧ Rechained list c m.heap m'.heap c' ∧
      (c'.map Prod.snd).flatten = (c.map Prod.snd).flatten.eraseIdx i := by
  obtain ⟨front, seg, items, back, m₁, r₁, rfl, position, offset, full, located, edited₁, found₁, chained₁⟩ :=
    locate_cut found chained inside
  have here := (linked_append.1 chained₁.linked).2.1
  obtain ⟨m₂, m₃, mid, last, left, wrote, pulled, edited₃, linked₃, segments, contents, filled, short⟩ :=
    closeGap_spec chained₁.linked chained₁.distinct chained₁.packed offset
  have outside : list ∉ (front ++ (seg, items) :: back).map Prod.fst :=
    fun member => chained₁.linked.ne_list found₁ member rfl
  obtain ⟨m₄, counted, edited₄, found₄⟩ :=
    modifyRecord_spec (fun r => { r with length := r.length - 1, cursor := none })
      ((edited₃.outside list outside).trans found₁)
  have linked₄ := linked₃.edited edited₄ fun s member same => outside (segments ▸ same ▸ member)
  have whole : ((front ++ (seg, items) :: back).map Prod.snd).flatten.eraseIdx i =
      (front.map Prod.snd).flatten ++ (items.eraseIdx (i % segmentCapacity) ++ (back.map Prod.snd).flatten) := by
    rw [List.map_append, List.flatten_append, List.eraseIdx_append_of_length_le (by omega),
      show i - (front.map Prod.snd).flatten.length = i % segmentCapacity by omega, List.map_cons, List.flatten_cons,
      List.eraseIdx_append_of_lt_length offset]
  have head : r₁.head = (mid ++ [(last, left)]).head?.map Prod.fst := by
    rw [chained₁.head, ← List.head?_map, ← List.head?_map, segments]
  have tail : r₁.tail = some last := by
    rw [chained₁.tail, ← List.getLast?_map, ← segments]
    simp
  have length : r₁.length - 1 = ((mid ++ [(last, left)]).map Prod.snd).flatten.length := by
    rw [contents, ← whole, List.length_eraseIdx_of_lt, chained₁.length]
    rwa [← chained.length]
  obtain ⟨m', c', dropped, changed, kept⟩ :=
    dropEmptyTail_spec found₄ linked₄ (segments ▸ chained₁.distinct) filled (Nat.le_of_lt short) head tail length rfl
  refine ⟨m', c', ?_, Rechained.after_edits ?_ changed segments, ?_⟩
  · rw [remove, run_bind_ok located, run_bind_ok (run_inspect_ok (segmentRecord_ok here)), if_pos offset,
      run_bind_ok wrote, run_bind_ok (run_heap m₂), run_bind_ok pulled, run_bind_ok counted]
    rw [run_bind_ok (run_inspect_ok (segListLength_ok found₄))]
    exact dropped
  · refine ((edited₁.mono ?_).trans (edited₃.mono ?_)).trans (edited₄.mono ?_)
    · exact fun _ same => .inl same
    · exact fun _ member => .inr member
    · exact fun _ same => .inl same
  · rw [kept, contents, whole]

/-- Clearing releases the whole chain. -/
theorem clear_spec (found : m.heap.find? list = some (.seglist r)) (chained : m.heap.Chained r c) :
    ∃ m', (clear list).run m = (.ok (), m') ∧ Rechained list c m.heap m'.heap [] := by
  obtain ⟨m₁, wrote, edited, found₁⟩ := modifyRecord_spec (fun _ => {}) found
  have linked₁ := chained.linked.edited edited fun s member => chained.linked.ne_list found member
  have enough : c.length ≤ m₁.heap.arena.slots.size + 1 := by
    have := linked₁.length_le chained.distinct
    omega
  obtain ⟨m', released, steady, view⟩ := run_releaseChain linked₁ chained.distinct enough
  refine ⟨m', ?_, { edited.toSteady.trans steady with
    here := ⟨{}, ?_, ?_⟩, segments := .inr List.nil_prefix, frame := ?_, gone := ?_, fresh := ?_ }⟩
  · rw [clear, run_bind_ok (run_inspect_ok (segListRecord_ok found)), run_bind_ok wrote, run_bind_ok (run_heap m₁),
      chained.start, released]
  · rw [view, if_neg fun member => chained.linked.ne_list found member rfl, found₁]
  · exact ⟨trivial, List.nodup_nil, trivial, rfl, rfl, rfl, by simp⟩
  · intro y other outside _
    rw [view, if_neg outside, edited.outside y other]
  · intro s member _
    rw [view, if_pos member]
  · intro s member
    cases member

/-! ### Operations that may allocate -/

/-- An empty list gets a chain of one segment. -/
theorem append_empty (x : Handle) (found : m.heap.find? list = some (.seglist r)) (chained : m.heap.Chained r [])
    (ok : m.heap.Accounted) (reached : m.heap.arena.Reaches (m.heap.collectionRoots [x]) list) :
    Grown list x [] [x] m.heap ((append list x).run m) := by
  have start : r.tail = none := chained.tail
  rw [append, run_bind_ok (run_inspect_ok (segListRecord_ok found)), placeLast, start]
  obtain ⟨g, swept, ⟨e, m', failed, memory, rfl, refused⟩ | ⟨s, m₁, entered, placed⟩⟩ :=
    allocatePinned_spec (m := m) (.segment { items := [x] }) [] ok
  · rw [run_bind_error (by rw [startChain]; exact run_bind_error failed)]
    exact .failed swept memory rfl refused
  · obtain ⟨found_g, -⟩ := chained.swept found ok reached swept
    obtain ⟨apart, found₁⟩ := placed.live found_g
    obtain ⟨m₂, headed, edited₂, found₂⟩ :=
      modifyRecord_spec (fun r => { r with head := some s, tail := some s }) found₁
    obtain ⟨m₃, counted, edited₃, found₃⟩ := modifyRecord_spec (fun r => { r with length := r.length + 1 }) found₂
    have edited := edited₂.trans edited₃
    have segment := (edited.outside s apart.symm).trans placed.here
    have length : r.length = 0 := chained.length
    have chained₃ : m₃.heap.Chained
        { head := some s, tail := some s, length := r.length + 1, cursor := r.cursor } [(s, [x])] :=
      { linked := ⟨segment, trivial⟩
        distinct := by simp
        packed := ⟨Nat.one_pos, by simp [segmentCapacity_eq]⟩
        head := rfl
        tail := rfl
        length := by simp [length]
        cursor := fun n seg known => by simpa using chained.cursor n seg known }
    rw [run_bind_ok (by rw [startChain, HeapM.allocate, run_bind_ok entered]; exact headed), counted]
    exact .grown swept (placed.reserved.rechained (edited.mono fun _ same => .inl same) ⟨_, found₃, chained₃⟩ rfl) rfl

/-- A list whose last segment is full gets another one. -/
theorem append_extends (x : Handle) {front : Chain} {tail : Handle} {items : List Handle}
    (found : m.heap.find? list = some (.seglist r)) (chained : m.heap.Chained r (front ++ [(tail, items)]))
    (whole : r.length % segmentCapacity = 0) (ok : m.heap.Accounted)
    (reached : m.heap.arena.Reaches (m.heap.collectionRoots [x]) list) :
    Grown list x (front ++ [(tail, items)]) (((front ++ [(tail, items)]).map Prod.snd).flatten ++ [x]) m.heap
      ((append list x).run m) := by
  have last : r.tail = some tail := by simpa using chained.tail
  rw [append, run_bind_ok (run_inspect_ok (segListRecord_ok found)), placeLast, last]
  simp only [if_pos whole]
  obtain ⟨g, swept, ⟨e, m', failed, memory, rfl, refused⟩ | ⟨s, m₁, entered, placed⟩⟩ :=
    allocatePinned_spec (m := m) (.segment { items := [x] }) [] ok
  · rw [run_bind_error (by rw [extendChain]; exact run_bind_error failed)]
    exact .failed swept memory (chained.length ▸ whole) refused
  · obtain ⟨found_g, chained_g⟩ := chained.swept found ok reached swept
    have fresh : s ∉ (front ++ [(tail, items)]).map Prod.fst := by
      intro member
      obtain ⟨t, live⟩ := chained_g.linked.segment member
      rw [placed.fresh] at live
      cases live
    have linked₁ := chained_g.linked.congr fun t member => placed.other (ne_of_mem_of_not_mem member fresh)
    obtain ⟨apart, found₁⟩ := placed.live found_g
    have tail_list : tail ≠ list := linked₁.ne_list found₁ (by simp)
    have tail_fresh : tail ∉ front.map Prod.fst := by
      have distinct := chained.distinct
      rw [List.map_append, List.nodup_append] at distinct
      exact fun member => distinct.2.2 tail member tail (by simp) rfl
    -- the old tail gets its link, then the record its tail and its length
    obtain ⟨m₂, joined, edited₂, written⟩ :=
      modifySegment_spec (fun t => { t with next := some s }) (linked_append.1 linked₁).2.1
    obtain ⟨m₃, ended, edited₃, found₃⟩ := modifyRecord_spec (fun r => { r with tail := some s })
      ((edited₂.outside list tail_list.symm).trans found₁)
    obtain ⟨m₄, counted, edited₄, found₄⟩ := modifyRecord_spec (fun r => { r with length := r.length + 1 }) found₃
    have edited := edited₃.trans edited₄
    have segment : m₄.heap.find? s = some (.segment { items := [x] }) := by
      rw [edited.outside s apart.symm, edited₂.outside s (ne_of_mem_of_not_mem (by simp) fresh).symm, placed.here]
    have linked₂ := linked₁.relink tail_fresh edited₂ written
    have linked₄ : m₄.heap.Linked none (front ++ [(tail, items)] ++ [(s, [x])]) :=
      linked_append.2 ⟨linked₂.edited edited fun t member => linked₁.ne_list found₁ member, segment, trivial⟩
    have full : AllFull ((front ++ [(tail, items)]).map Prod.snd) := by
      have packed := chained.packed
      rw [List.map_append] at packed ⊢
      have size := packed.last_full_iff.2 (by rw [← whole, chained.length, List.map_append]; rfl)
      exact (packed_snoc_iff.1 packed).1.append (by simpa [AllFull] using size)
    have chained₄ : m₄.heap.Chained { r with tail := some s, length := r.length + 1 }
        (front ++ [(tail, items)] ++ [(s, [x])]) := by
      refine chained_g.renew (t := some s) (by simp) linked₄ (by simp) ?_ ?_ rfl rfl ?_ (.inl rfl)
      · intro t same
        obtain rfl : s = t := by simpa using same
        exact fresh
      · rw [List.map_append]
        exact packed_snoc_iff.2 ⟨full, Nat.one_pos, by simp [segmentCapacity_eq]⟩
      · rw [List.map_append, List.flatten_append, List.length_append, ← chained_g.length]
        rfl
    have changed : Rechained list (front ++ [(tail, items)]) g m₄.heap (front ++ [(tail, items)] ++ [(s, [x])]) := by
      refine placed.reserved.rechained ((edited₂.mono ?_).trans (edited.mono ?_)) ⟨_, found₄, chained₄⟩ (by simp)
      · exact fun _ same => .inr (by simp [same])
      · exact fun _ same => .inl same
    rw [run_bind_ok (by
      rw [extendChain, HeapM.allocate, run_bind_ok entered, run_bind_ok joined]
      exact ended), counted]
    exact .grown swept changed (by simp)

/-- A last segment with room takes the reference. -/
theorem append_room (x : Handle) {front : Chain} {tail : Handle} {items : List Handle}
    (found : m.heap.find? list = some (.seglist r)) (chained : m.heap.Chained r (front ++ [(tail, items)]))
    (room : r.length % segmentCapacity ≠ 0) :
    Grown list x (front ++ [(tail, items)]) (((front ++ [(tail, items)]).map Prod.snd).flatten ++ [x]) m.heap
      ((append list x).run m) := by
  have last : r.tail = some tail := by simpa using chained.tail
  have packed := chained.packed
  rw [List.map_append] at packed
  obtain ⟨full, -, most⟩ := packed_snoc_iff.1 packed
  have short : items.length < segmentCapacity := by
    refine Nat.lt_of_le_of_ne most fun size => room ?_
    rw [chained.length, List.map_append]
    exact packed.last_full_iff.1 size
  obtain ⟨m₁, wrote, edited₁, written⟩ :=
    modifySegment_spec (fun s => { s with items := s.items ++ [x] }) (linked_append.1 chained.linked).2.1
  have linked₁ := chained.linked.write chained.distinct edited₁ written
  have apart : tail ≠ list := chained.linked.ne_list found (by simp)
  have found₁ := (edited₁.outside list apart.symm).trans found
  obtain ⟨m₂, counted, edited₂, found₂⟩ := modifyRecord_spec (fun r => { r with length := r.length + 1 }) found₁
  have linked₂ := linked₁.edited edited₂ fun t member => linked₁.ne_list found₁ member
  have chained₂ : m₂.heap.Chained { r with length := r.length + 1 } (front ++ [(tail, items ++ [x])]) := by
    refine chained.renew (t := none) (by simp) linked₂ (by simp) (by simp) ?_ rfl rfl ?_ (.inl rfl)
    · rw [List.map_append]
      refine packed_snoc_iff.2 ⟨full, ?_, ?_⟩
      · simp
      · rw [List.length_append]
        exact short
    · have length := chained.length
      simp only [List.map_append, List.map_cons, List.map_nil, List.flatten_append, List.flatten_cons, List.flatten_nil,
        List.append_nil, List.length_append, List.length_singleton] at length ⊢
      omega
  have changed : Rechained list (front ++ [(tail, items)]) m.heap m₂.heap (front ++ [(tail, items ++ [x])]) := by
    refine ((edited₁.mono ?_).trans (edited₂.mono ?_)).rechained ⟨_, found₂, chained₂⟩ (by simp)
    · exact fun _ same => .inr (by simp [same])
    · exact fun _ same => .inl same
  rw [append, run_bind_ok (run_inspect_ok (segListRecord_ok found)), placeLast, last]
  simp only [if_neg room]
  rw [run_bind_ok wrote, counted]
  exact .grown (.inl rfl) changed (by simp)

/-- Appending puts a reference behind the contents. -/
theorem append_spec (x : Handle) (found : m.heap.find? list = some (.seglist r)) (chained : m.heap.Chained r c)
    (ok : m.heap.Accounted) (reached : m.heap.arena.Reaches (m.heap.collectionRoots [x]) list) :
    Grown list x c ((c.map Prod.snd).flatten ++ [x]) m.heap ((append list x).run m) := by
  rcases List.eq_nil_or_concat' c with rfl | ⟨front, ⟨tail, items⟩, rfl⟩
  · exact append_empty x found chained ok reached
  · by_cases whole : r.length % segmentCapacity = 0
    · exact append_extends x found chained whole ok reached
    · exact append_room x found chained whole

/-- Keeping a segment ready for an insertion: it fails for want of memory, or the
chain has its spare segment. -/
theorem spareFor_spec (x : Handle) (found : m.heap.find? list = some (.seglist r)) (chained : m.heap.Chained r c)
    (ok : m.heap.Accounted) (reached : m.heap.arena.Reaches (m.heap.collectionRoots [x]) list) :
    ∃ g, Swept [x] m.heap g ∧
      ((∃ e m', (spareFor r.length x).run m = (.error e, m') ∧ e.kind = .memory ∧ m'.heap = g ∧
          r.length % segmentCapacity = 0 ∧ ¬ g.Admits (Payload.segment {}).chunkBytes) ∨
        ∃ spare m', (spareFor r.length x).run m = (.ok spare, m') ∧ Reserved spare g m'.heap ∧
          m'.heap.find? list = some (.seglist r) ∧ m'.heap.Chained r c ∧ m'.heap.Spare c spare) := by
  by_cases whole : r.length % segmentCapacity = 0
  · obtain ⟨g, swept, ⟨e, m', failed, memory, rfl, refused⟩ | ⟨s, m', entered, placed⟩⟩ :=
      allocatePinned_spec (m := m) (.segment {}) [x] ok
    · refine ⟨m'.heap, swept, .inl ⟨e, m', ?_, memory, rfl, whole, refused⟩⟩
      rw [spareFor, if_pos whole, map_eq_pure_bind, run_bind_error failed]
    · obtain ⟨found_g, chained_g⟩ := chained.swept found ok reached swept
      have fresh : s ∉ c.map Prod.fst := by
        intro member
        obtain ⟨t, live⟩ := chained_g.linked.segment member
        rw [placed.fresh] at live
        cases live
      refine ⟨g, swept, .inr ⟨some s, m', ?_, placed.reserved, (placed.live found_g).2, ?_, ?_, placed.here, fresh⟩⟩
      · rw [spareFor, if_pos whole, map_eq_pure_bind, run_bind_ok entered]
        rfl
      · exact chained_g.congr fun t member => placed.other (ne_of_mem_of_not_mem member fresh)
      · rw [← chained.length, whole]
  · refine ⟨m.heap, .inl rfl, .inr ⟨none, m, ?_, Reserved.refl _, found, chained, ?_⟩⟩
    · rw [spareFor, if_neg whole]
      rfl
    · rwa [Spare, ← chained.length]

/-- Inserting before a position within the length, once the spare segment is there. -/
theorem insert_ready (x : Handle) {spare : Option Handle} {g : Heap} (found : m.heap.find? list = some (.seglist r))
    (chained : m.heap.Chained r c) (kept : m.heap.Spare c spare) (reserved : Reserved spare g m.heap)
    (inside : i < r.length) :
    ∃ m₁ m₂ m₃ c' seg, (locate list i).run m = (.ok (seg, i % segmentCapacity), m₁) ∧
      (pushAlong list m₁.heap.arena.slots.size spare seg (i % segmentCapacity) x).run m₁ = (.ok (), m₂) ∧
      (modifyRecord list fun r => { r with length := r.length + 1, cursor := none }).run m₂ = (.ok (), m₃) ∧
      Rechained list c g m₃.heap c' ∧ (c'.map Prod.snd).flatten = (c.map Prod.snd).flatten.insertIdx i x := by
  obtain ⟨front, seg, items, back, m₁, r₁, rfl, position, offset, full, located, edited₁, found₁, chained₁⟩ :=
    locate_cut found chained inside
  have outside : list ∉ (front ++ (seg, items) :: back).map Prod.fst :=
    fun member => chained₁.linked.ne_list found₁ member rfl
  have kept₁ : m₁.heap.Spare (front ++ (seg, items) :: back) spare := by
    cases spare with
    | none => exact kept
    | some fresh =>
      obtain ⟨whole, empty, missing⟩ := kept
      refine ⟨whole, ?_, missing⟩
      rw [edited₁.outside fresh, empty]
      rintro rfl
      rw [found] at empty
      cases empty
  have enough : back.length + 1 + spare.toList.length ≤ m₁.heap.arena.slots.size := by
    have bound := kept₁.length_le chained₁.linked chained₁.distinct
    simp only [List.length_append, List.length_cons] at bound
    omega
  have packed := chained₁.packed
  rw [List.map_append] at packed
  obtain ⟨-, packed⟩ := (packed_append_iff (by simp)).1 packed
  have distinct := chained₁.distinct
  rw [List.map_append, List.nodup_append] at distinct
  obtain ⟨-, distinct, apart⟩ := distinct
  -- the push starts at the segment of `i`, and those in front keep their links and contents
  obtain ⟨m₂, mid, pushed, after⟩ := run_pushAlong (x := x) (linked_append.1 chained₁.linked).2 distinct packed
    (Spare.behind front kept₁ full fun _ _ => rfl) found₁ offset enough
  have untouched : ∀ s ∈ front.map Prod.fst, ¬ (s = list ∨ s ∈ mid.map Prod.fst) := by
    intro s member
    rw [after.segments, List.mem_append, Option.mem_toList]
    rintro (rfl | later | joined)
    · exact outside (by simp [member])
    · exact apart s member s later rfl
    · subst joined
      exact kept.2.2 (by simp [member])
  have starts : Chain.start mid none = Chain.start ((seg, items) :: back) none := by
    rw [Chain.start, ← List.head?_map, after.segments]
    rfl
  have segments : (front ++ mid).map Prod.fst = (front ++ (seg, items) :: back).map Prod.fst ++ spare.toList := by
    rw [List.map_append, after.segments, List.map_append, List.append_assoc]
  have linked₂ := chained₁.linked.splice (fun s member => after.edited.outside s (untouched s member)) after.linked starts
  obtain ⟨m₃, counted, edited₃, found₃⟩ :=
    modifyRecord_spec (fun r => { r with length := r.length + 1, cursor := none }) after.record
  have linked₃ := linked₂.edited edited₃ fun s member => linked₂.ne_list after.record member
  have contents : ((front ++ mid).map Prod.snd).flatten =
      ((front ++ (seg, items) :: back).map Prod.snd).flatten.insertIdx i x := by
    rw [List.map_append, List.flatten_append, after.items, List.map_append, List.flatten_append,
      ← insertIdx_append_right, position]
  have length : r₁.length + 1 = ((front ++ mid).map Prod.snd).flatten.length := by
    rw [contents, List.length_insertIdx_of_le_length, chained₁.length]
    rw [← chained.length]
    exact Nat.le_of_lt inside
  have chained₃ : m₃.heap.Chained { r₁ with tail := spare.or r₁.tail, length := r₁.length + 1, cursor := none }
      (front ++ mid) := by
    refine chained₁.renew (t := spare) (by simp) linked₃ segments ?_ ?_ rfl rfl length (.inr rfl)
    · rintro s rfl
      exact kept.2.2
    · rw [List.map_append]
      refine (packed_append_iff ?_).2 ⟨full, after.packed⟩
      intro none_
      rw [List.map_eq_nil_iff] at none_
      simp [none_, Chain.start] at starts
  refine ⟨m₁, m₂, m₃, front ++ mid, seg, located, pushed, counted, ?_, contents⟩
  refine reserved.rechained (((edited₁.mono ?_).trans (after.edited.mono ?_)).trans (edited₃.mono ?_))
    ⟨_, found₃, chained₃⟩ segments
  · exact fun _ same => .inl same
  · rintro s (same | member)
    · exact .inl same
    · exact .inr (by simp only [List.map_append, List.mem_append, member, or_true])
  · exact fun _ same => .inl same

/-- Inserting past the end is an index error and changes nothing. -/
theorem run_insert_range (x : Handle) (found : m.heap.find? list = some (.seglist r)) (outside : r.length < i) :
    (insert list x i).run m = (.error .segListInsertRange, m) := by
  rw [insert, run_bind_ok (run_inspect_ok (segListLength_ok found)), if_pos outside]
  rfl

/-- Inserting before a position puts the reference there. -/
theorem insert_spec (x : Handle) (found : m.heap.find? list = some (.seglist r)) (chained : m.heap.Chained r c)
    (ok : m.heap.Accounted) (reached : m.heap.arena.Reaches (m.heap.collectionRoots [x]) list) (inside : i ≤ r.length) :
    Grown list x c ((c.map Prod.snd).flatten.insertIdx i x) m.heap ((insert list x i).run m) := by
  rw [insert, run_bind_ok (run_inspect_ok (segListLength_ok found)), if_neg (by omega)]
  by_cases last : i = r.length
  · rw [if_pos last, last, chained.length, List.insertIdx_length_self]
    exact append_spec x found chained ok reached
  · rw [if_neg last]
    obtain ⟨g, swept, ⟨e, m', failed, memory, rfl, full, refused⟩ | ⟨spare, m', ready, reserved, found', chained', kept⟩⟩ :=
      spareFor_spec x found chained ok reached
    · rw [run_bind_error failed]
      exact .failed swept memory (chained.length ▸ full) refused
    · obtain ⟨m₁, m₂, m₃, c', seg, located, pushed, counted, changed, contents⟩ :=
        insert_ready x found' chained' kept reserved (Nat.lt_of_le_of_ne inside last)
      rw [run_bind_ok ready, run_bind_ok located, run_bind_ok (run_heap m₁), run_bind_ok pushed, counted]
      exact .grown swept changed contents

end SegList

end ChunkHeap

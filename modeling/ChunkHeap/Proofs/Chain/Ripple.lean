import ChunkHeap.Proofs.Chain.Linked

/-!
# Ripples along a chain

An insertion pushes one reference from each full segment into the next, and a
removal pulls one back. Both are argued by induction on the part of the chain
behind the segment where they start; the part in front is not touched.

A chain is packed before and after, so where the references end up is settled by
the segments and the contents as a whole: `run_pushAlong` and `run_pullAlong`
speak of these only. A removal leaves one block a reference short. Pulling moves
that gap to the end of the chain, and `Packed` is said of the chain with the gap
filled.
-/

namespace ChunkHeap
set_option autoImplicit false

namespace Heap

variable {h g : Heap} {c : Chain} {spare : Option Handle}

/-- What is kept ready behind a chain for an insertion: an empty segment if the
last one is full, nothing otherwise. -/
def Spare (h : Heap) (c : Chain) : Option Handle → Prop
  | none => (c.map Prod.snd).flatten.length % segmentCapacity ≠ 0
  | some fresh => (c.map Prod.snd).flatten.length % segmentCapacity = 0 ∧
      h.find? fresh = some (.segment {}) ∧ fresh ∉ c.map Prod.fst

/-- A spare segment for a chain is one for what follows full segments. -/
theorem Spare.behind (front : Chain) (kept : h.Spare (front ++ c) spare) (full : AllFull (front.map Prod.snd))
    (same : ∀ t, t ∉ front.map Prod.fst → g.find? t = h.find? t) : g.Spare c spare := by
  have size : ((front ++ c).map Prod.snd).flatten.length =
      segmentCapacity * front.length + (c.map Prod.snd).flatten.length := by
    rw [List.map_append, List.flatten_append, List.length_append, full.length_flatten, List.length_map]
  cases spare with
  | none =>
    rw [Spare, size, Nat.mul_add_mod] at kept
    exact kept
  | some fresh =>
    obtain ⟨whole, empty, outside⟩ := kept
    rw [size, Nat.mul_add_mod] at whole
    rw [List.map_append, List.mem_append, not_or] at outside
    exact ⟨whole, (same fresh outside.1).trans empty, outside.2⟩

/-- The arena has room for the chain and the spare segment. -/
theorem Spare.length_le (kept : h.Spare c spare) (linked : h.Linked none c) (distinct : (c.map Prod.fst).Nodup) :
    c.length + spare.toList.length ≤ h.arena.slots.size := by
  cases spare with
  | none => exact linked.length_le distinct
  | some fresh =>
    obtain ⟨-, empty, outside⟩ := kept
    have count := Arena.length_le_size (a := h.arena) (List.nodup_cons.2 ⟨outside, distinct⟩) (by
      intro s member
      have live : ∃ r, h.find? s = some (.segment r) := by
        rcases List.mem_cons.1 member with rfl | member
        · exact ⟨_, empty⟩
        · exact linked.segment member
      obtain ⟨r, segment⟩ := live
      obtain ⟨o, found, -⟩ := find?_eq_some_iff.1 segment
      exact ⟨o, found⟩)
    simpa using count

/-- What pushing along a chain `c` with contents `xs` afterwards comes to. -/
structure Pushed (list : Handle) (r : SegListRecord) (spare : Option Handle) (c : Chain) (xs : List Handle)
    (h g : Heap) (c' : Chain) : Prop where
  edited : Edited (fun x => x = list ∨ x ∈ c'.map Prod.fst) h g
  linked : g.Linked none c'
  segments : c'.map Prod.fst = c.map Prod.fst ++ spare.toList
  packed : Packed (c'.map Prod.snd)
  items : (c'.map Prod.snd).flatten = xs
  record : g.find? list = some (.seglist { r with tail := spare.or r.tail })

/-- Writing a full segment and then pushing along the chain behind it is a push
along both, with the contents of the segment in front. -/
theorem Pushed.cons {list seg : Handle} {r : SegListRecord} {items items' xs : List Handle} {c' : Chain} {k : Heap}
    (pushed : Pushed list r spare c xs h g c') (edited : Edited (· = seg) k h)
    (written : h.find? seg = some (.segment { items := items', next := Chain.start c none }))
    (full : items'.length = segmentCapacity) (nonempty : c ≠ []) (other : seg ≠ list)
    (outside : seg ∉ c.map Prod.fst ++ spare.toList) :
    Pushed list r spare ((seg, items) :: c) (items' ++ xs) k g ((seg, items') :: c') := by
  have untouched : ¬ (seg = list ∨ seg ∈ c'.map Prod.fst) := by
    rw [pushed.segments]
    exact not_or.2 ⟨other, outside⟩
  have starts : Chain.start c' none = Chain.start c none := by
    obtain ⟨e, rest, rfl⟩ := List.exists_cons_of_ne_nil nonempty
    rw [Chain.start, ← List.head?_map, pushed.segments]
    rfl
  constructor
  case edited =>
    refine (edited.mono fun y same => .inr (by simp [same])).trans (pushed.edited.mono fun y touched => ?_)
    rcases touched with same | member
    · exact .inl same
    · exact .inr (List.mem_cons_of_mem _ member)
  case linked =>
    refine ⟨?_, pushed.linked⟩
    rw [pushed.edited.outside seg untouched, written, starts]
  case segments =>
    rw [List.map_cons, pushed.segments]
    rfl
  case packed =>
    have some_left : c'.map Prod.snd ≠ [] := by
      intro none
      have := pushed.segments
      rw [List.map_eq_nil_iff.1 none] at this
      simp [nonempty] at this
    show Packed ([items'] ++ c'.map Prod.snd)
    exact (packed_append_iff some_left).2 ⟨by simpa [AllFull] using full, pushed.packed⟩
  case items => rw [List.map_cons, List.flatten_cons, pushed.items]
  case record => exact pushed.record

end Heap

namespace SegList

open HeapM Heap

variable {m : Machine} {list seg x : Handle} {fuel offset : Nat} {spare : Option Handle}

/-- A segment with room takes the reference, and nothing moves on. -/
theorem run_pushAlong_room {r : SegmentRecord} (found : m.heap.find? seg = some (.segment r))
    (room : r.items.length < segmentCapacity) :
    (pushAlong list (fuel + 1) spare seg offset x).run m =
      (.ok (), m.put seg (.segment { r with items := r.items.insertIdx offset x })) := by
  rw [pushAlong, run_bind_ok (run_inspect_ok (segmentRecord_ok found)), if_pos room, run_modifySegment _ found]

/-- A full segment takes the reference and hands its last one to the next. -/
theorem run_pushAlong_full {items : List Handle} {overflow next : Handle}
    (found : m.heap.find? seg = some (.segment { items, next := some next }))
    (full : items.length = segmentCapacity) (last : items.getLast? = some overflow) :
    (pushAlong list (fuel + 1) spare seg offset x).run m =
      (pushAlong list fuel spare next 0 overflow).run
        (m.put seg (.segment { items := items.dropLast.insertIdx offset x, next := some next })) := by
  rw [pushAlong, run_bind_ok (run_inspect_ok (segmentRecord_ok found)), if_neg (by simp only; omega)]
  simp only [last]
  rw [run_bind_ok (run_modifySegment _ found)]

/-- Behind the last segment, if that is full, comes the spare one, which takes
the reference left over. -/
theorem run_pushAlong_spare (fuel offset : Nat) (x : Handle) {items : List Handle} {overflow fresh : Handle}
    {r : SegListRecord} (found : m.heap.find? seg = some (.segment { items, next := none }))
    (full : items.length = segmentCapacity) (last : items.getLast? = some overflow)
    (record : m.heap.find? list = some (.seglist r)) (empty : m.heap.find? fresh = some (.segment {}))
    (different : fresh ≠ seg) :
    ∃ m', (pushAlong list (fuel + 2) (some fresh) seg offset x).run m = (.ok (), m') ∧
      Edited (fun y => y = list ∨ y = seg ∨ y = fresh) m.heap m'.heap ∧
      m'.heap.find? list = some (.seglist { r with tail := some fresh }) ∧
      m'.heap.find? seg = some (.segment { items := items.dropLast.insertIdx offset x, next := some fresh }) ∧
      m'.heap.find? fresh = some (.segment { items := [overflow] }) := by
  have list_seg : list ≠ seg := by rintro rfl; simp [record] at found
  have list_fresh : list ≠ fresh := by rintro rfl; simp [record] at empty
  -- the four writes, in order
  let filled : Payload := .segment { items := items.dropLast.insertIdx offset x, next := none }
  let linked : Payload := .segment { items := items.dropLast.insertIdx offset x, next := some fresh }
  let ended : Payload := .seglist { r with tail := some fresh }
  let m₁ := m.put seg filled
  let m₂ := m₁.put seg linked
  let m₃ := m₂.put list ended
  have found₁ : m₁.heap.find? seg = some filled := find?_setPayload_self found filled
  have found₂ : m₂.heap.find? seg = some linked := find?_setPayload_self found₁ linked
  have record₂ : m₂.heap.find? list = some (.seglist r) := by
    rw [Machine.put_heap, find?_setPayload_other list_seg, Machine.put_heap, find?_setPayload_other list_seg, record]
  have empty₃ : m₃.heap.find? fresh = some (.segment {}) := by
    rw [Machine.put_heap, find?_setPayload_other list_fresh.symm, Machine.put_heap, find?_setPayload_other different,
      Machine.put_heap, find?_setPayload_other different, empty]
  have edited₁ : Edited (· = seg) m.heap m₁.heap := edited_segment _ found
  have edited₂ : Edited (· = seg) m₁.heap m₂.heap := edited_segment _ found₁
  have edited₃ : Edited (· = list) m₂.heap m₃.heap := edited_seglist _ record₂
  have edited₄ : Edited (· = fresh) m₃.heap (m₃.put fresh (.segment { items := [overflow] })).heap :=
    edited_segment _ empty₃
  refine ⟨m₃.put fresh (.segment { items := [overflow] }), ?_, ?_, ?_, ?_, find?_setPayload_self empty₃ _⟩
  · rw [pushAlong, run_bind_ok (run_inspect_ok (segmentRecord_ok found)), if_neg (by simp only; omega)]
    simp only [last]
    rw [run_bind_ok (run_modifySegment _ found), run_bind_ok (run_modifySegment _ found₁),
      run_bind_ok (run_modifyRecord _ record₂), run_pushAlong_room empty₃ (by simp [segmentCapacity_eq])]
    rfl
  · have of_seg : ∀ y, y = seg → y = list ∨ y = seg ∨ y = fresh := fun _ same => .inr (.inl same)
    exact ((edited₁.mono of_seg).trans (edited₂.mono of_seg)).trans
      ((edited₃.mono fun _ same => .inl same).trans (edited₄.mono fun _ same => .inr (.inr same)))
  · rw [edited₄.outside list list_fresh]
    exact find?_setPayload_self record₂ ended
  · rw [edited₄.outside seg different.symm, edited₃.outside seg list_seg.symm]
    exact found₂

/-- Pushing into the last segment uses the spare one just when there is one. -/
theorem run_pushAlong_last {items : List Handle} {r : SegListRecord}
    (found : m.heap.find? seg = some (.segment { items })) (most : items.length ≤ segmentCapacity)
    (kept : m.heap.Spare [(seg, items)] spare) (record : m.heap.find? list = some (.seglist r))
    (inside : offset < items.length) :
    ∃ m' c', (pushAlong list (fuel + 1 + spare.toList.length) spare seg offset x).run m = (.ok (), m') ∧
      Pushed list r spare [(seg, items)] (items.insertIdx offset x) m.heap m'.heap c' := by
  have list_seg : list ≠ seg := by rintro rfl; simp [record] at found
  cases spare with
  | none =>
    have room : items.length < segmentCapacity := by
      simp only [Spare, List.map_cons, List.map_nil, List.flatten_cons, List.flatten_nil, List.append_nil,
        segmentCapacity_eq] at kept most ⊢
      omega
    have edited := edited_segment { items := items.insertIdx offset x } found
    refine ⟨_, [(seg, items.insertIdx offset x)], run_pushAlong_room found room, ?_, ?_, ?_, ?_, ?_, ?_⟩
    · exact edited.mono fun y same => .inr (by simp [same])
    · exact ⟨find?_setPayload_self found _, trivial⟩
    · simp
    · refine ⟨?_, ?_⟩
      all_goals rw [List.length_insertIdx_of_le_length (Nat.le_of_lt inside)]; omega
    · simp
    · exact (edited.outside list list_seg).trans record
  | some fresh =>
    obtain ⟨whole, empty, outside⟩ := kept
    have full : items.length = segmentCapacity := by
      simp only [List.map_cons, List.map_nil, List.flatten_cons, List.flatten_nil, List.append_nil,
        segmentCapacity_eq] at whole most ⊢
      omega
    obtain ⟨overflow, last, cut, size⟩ := overflow_of_full (x := x) full inside
    have different : fresh ≠ seg := by simpa using outside
    obtain ⟨m', ran, edited, tail, first, second⟩ :=
      run_pushAlong_spare fuel offset x found full last record empty different
    refine ⟨m', [(seg, items.dropLast.insertIdx offset x), (fresh, [overflow])], ran, ?_, ?_, ?_, ?_, ?_, tail⟩
    · exact edited.mono fun y touched => by simpa using touched
    · exact ⟨first, second, trivial⟩
    · rfl
    · exact ⟨size, by simp, by simp [segmentCapacity_eq]⟩
    · simp [cut]

/-- Pushing a reference in at `offset` of the first segment inserts it into the
contents of the whole chain. -/
theorem run_pushAlong {rest : Chain} {items : List Handle} {r : SegListRecord}
    (linked : m.heap.Linked none ((seg, items) :: rest)) (distinct : (((seg, items) :: rest).map Prod.fst).Nodup)
    (packed : Packed (((seg, items) :: rest).map Prod.snd)) (kept : m.heap.Spare ((seg, items) :: rest) spare)
    (record : m.heap.find? list = some (.seglist r)) (inside : offset < items.length)
    (enough : rest.length + 1 + spare.toList.length ≤ fuel) :
    ∃ m' c', (pushAlong list fuel spare seg offset x).run m = (.ok (), m') ∧
      Pushed list r spare ((seg, items) :: rest)
        ((((seg, items) :: rest).map Prod.snd).flatten.insertIdx offset x) m.heap m'.heap c' := by
  -- each full segment passes on its last reference, which goes in at the front of the next
  induction rest generalizing m seg items offset x fuel with
  | nil =>
    obtain ⟨n, rfl⟩ : ∃ n, fuel = n + 1 + spare.toList.length :=
      ⟨fuel - 1 - spare.toList.length, by simp only [List.length_nil] at enough; omega⟩
    simpa using run_pushAlong_last linked.1 packed.2 kept record inside
  | cons e rest ih =>
    obtain ⟨next, held⟩ := e
    obtain ⟨found, later⟩ := linked
    obtain ⟨fuel, rfl⟩ : ∃ n, fuel = n + 1 := ⟨fuel - 1, by simp at enough; omega⟩
    obtain ⟨full, packed⟩ := packed
    obtain ⟨fresh_seg, distinct⟩ := List.nodup_cons.1 distinct
    obtain ⟨overflow, last, cut, size⟩ := overflow_of_full (x := x) full inside
    have list_seg : list ≠ seg := by rintro rfl; simp [record] at found
    have some_held : 0 < held.length := by
      cases rest with
      | nil => exact packed.1
      | cons f rest => exact packed.1 ▸ (by decide)
    have not_spare : seg ∉ spare.toList := by
      intro member
      cases spare with
      | none => cases member
      | some fresh =>
        obtain rfl : seg = fresh := by simpa using member
        exact kept.2.2 (by simp)
    -- the first segment is written, and the rest is as before
    have edited := edited_segment { items := items.dropLast.insertIdx offset x, next := some next } found
    have behind := Spare.behind [(seg, items)] kept (by simpa [AllFull] using full) fun t away =>
      edited.outside t (by simpa using away)
    have still := later.edited edited fun s member same => fresh_seg (same ▸ member)
    have shorter : rest.length + 1 + spare.toList.length ≤ fuel := by
      simp only [List.length_cons] at enough
      omega
    obtain ⟨m', c', ran, pushed⟩ := ih (m := m.put seg _) (x := overflow) still distinct packed
      behind ((edited.outside list list_seg).trans record) some_held shorter
    have whole : (((seg, items) :: (next, held) :: rest).map Prod.snd).flatten.insertIdx offset x =
        items.dropLast.insertIdx offset x ++ ((((next, held) :: rest).map Prod.snd).flatten.insertIdx 0 overflow) := by
      rw [List.map_cons, List.flatten_cons, insertIdx_append_left (Nat.le_of_lt inside), cut, List.insertIdx_zero,
        List.append_assoc]
      rfl
    refine ⟨m', (seg, items.dropLast.insertIdx offset x) :: c', ?_, ?_⟩
    · rw [run_pushAlong_full found full last, ran]
    · rw [whole]
      exact pushed.cons edited (find?_setPayload_self found _) size (List.cons_ne_nil _ _) list_seg.symm
        (List.mem_append.not.2 (not_or.2 ⟨fresh_seg, not_spare⟩))

/-- A segment one reference short takes the first one of the next segment. -/
theorem run_pullAlong_step {items held : List Handle} {next first : Handle} {link : Option Handle}
    (found : m.heap.find? seg = some (.segment { items, next := some next }))
    (follows : m.heap.find? next = some (.segment { items := first :: held, next := link }))
    (different : seg ≠ next) :
    (pullAlong (fuel + 1) seg).run m =
      (pullAlong fuel next).run ((m.put next (.segment { items := held, next := link })).put seg
        (.segment { items := items ++ [first], next := some next })) := by
  have still : (m.put next (.segment { items := held, next := link })).heap.find? seg =
      some (.segment { items, next := some next }) := by
    rw [Machine.put_heap, find?_setPayload_other different, found]
  rw [pullAlong, run_bind_ok (run_inspect_ok (segmentRecord_ok found)),
    run_bind_ok (run_inspect_ok (segmentRecord_ok follows)), run_bind_ok (run_modifySegment _ follows)]
  exact run_bind_ok (run_modifySegment _ still)

/-- Pulling moves the gap in the first block to the end of the chain and keeps
the contents. `y` stands for the reference that is missing. -/
theorem run_pullAlong {rest : Chain} {items : List Handle} (y : Handle)
    (linked : m.heap.Linked none ((seg, items) :: rest)) (distinct : (((seg, items) :: rest).map Prod.fst).Nodup)
    (packed : Packed ((y :: items) :: rest.map Prod.snd)) (enough : rest.length < fuel) :
    ∃ m' front last left, (pullAlong fuel seg).run m = (.ok last, m') ∧
      Edited (· ∈ ((seg, items) :: rest).map Prod.fst) m.heap m'.heap ∧
      m'.heap.Linked none (front ++ [(last, left)]) ∧
      (front ++ [(last, left)]).map Prod.fst = ((seg, items) :: rest).map Prod.fst ∧
      ((front ++ [(last, left)]).map Prod.snd).flatten = (((seg, items) :: rest).map Prod.snd).flatten ∧
      AllFull (front.map Prod.snd) ∧ left.length < segmentCapacity := by
  induction rest generalizing m seg items y fuel with
  | nil =>
    obtain ⟨found, -⟩ := linked
    obtain ⟨fuel, rfl⟩ : ∃ n, fuel = n + 1 := ⟨fuel - 1, by omega⟩
    refine ⟨m, [], seg, items, ?_, Edited.refl _ _, ⟨found, trivial⟩, rfl, rfl, by simp [AllFull], packed.2⟩
    rw [pullAlong, run_bind_ok (run_inspect_ok (segmentRecord_ok found))]
    rfl
  | cons e rest ih =>
    obtain ⟨next, held⟩ := e
    obtain ⟨found, follows, later⟩ := linked
    obtain ⟨fuel, rfl⟩ : ∃ n, fuel = n + 1 := ⟨fuel - 1, by omega⟩
    obtain ⟨full, packed⟩ := packed
    obtain ⟨fresh_seg, distinct'⟩ := List.nodup_cons.1 distinct
    obtain ⟨fresh_next, -⟩ := List.nodup_cons.1 distinct'
    have different : seg ≠ next := fun same => fresh_seg (by simp [same])
    obtain ⟨first, held, rfl⟩ : ∃ first tail, held = first :: tail := by
      refine List.exists_cons_of_length_pos ?_
      cases rest with
      | nil => exact packed.1
      | cons f rest => exact packed.1 ▸ (by decide)
    -- both segments are written before the pull goes on
    have edited₁ := edited_segment { items := held, next := Chain.start rest none } follows
    have still := (edited₁.outside seg different).trans found
    have edited₂ := edited_segment { items := items ++ [first], next := some next } still
    let m₂ := (m.put next (.segment { items := held, next := Chain.start rest none })).put seg
      (.segment { items := items ++ [first], next := some next })
    have edited : Edited (fun x => x = next ∨ x = seg) m.heap m₂.heap :=
      (edited₁.mono fun _ same => .inl same).trans (edited₂.mono fun _ same => .inr same)
    have onward : m₂.heap.Linked none ((next, held) :: rest) := by
      refine ⟨?_, later.edited edited ?_⟩
      · exact (edited₂.outside next different.symm).trans (find?_setPayload_self follows _)
      · rintro s member (rfl | rfl)
        · exact fresh_next member
        · exact fresh_seg (List.mem_cons_of_mem _ member)
    have shorter : rest.length < fuel := by
      simp only [List.length_cons] at enough
      omega
    obtain ⟨m', front, last, left, ran, edited', linked', segments, contents, filled, short⟩ :=
      ih first onward distinct' packed shorter
    have starts : Chain.start (front ++ [(last, left)]) none = some next := by
      rw [Chain.start, ← List.head?_map, segments]
      rfl
    refine ⟨m', (seg, items ++ [first]) :: front, last, left, ?_, ?_, ?_, ?_, ?_, ?_, short⟩
    · rw [run_pullAlong_step found follows different, ran]
    · refine (edited.mono ?_).trans (edited'.mono fun x member => List.mem_cons_of_mem _ member)
      rintro x (rfl | rfl)
      · simp
      · simp
    · refine ⟨?_, linked'⟩
      show m'.heap.find? seg = some (.segment { items := _, next := Chain.start (front ++ [(last, left)]) none })
      rw [starts, edited'.outside seg fresh_seg]
      exact find?_setPayload_self still _
    · rw [List.cons_append, List.map_cons, segments]
      rfl
    · rw [List.cons_append, List.map_cons, List.flatten_cons, contents]
      simp
    · intro b member
      rcases List.mem_cons.1 member with rfl | member
      · simpa using full
      · exact filled b member

/-- Releasing a chain frees its segments and nothing else. -/
theorem run_releaseChain {c : Chain} (linked : m.heap.Linked none c) (distinct : (c.map Prod.fst).Nodup)
    (enough : c.length ≤ fuel) :
    ∃ m', (releaseChain fuel (Chain.start c none)).run m = (.ok (), m') ∧ Steady m.heap m'.heap ∧
      ∀ x, m'.heap.find? x = if x ∈ c.map Prod.fst then none else m.heap.find? x := by
  induction c generalizing m fuel with
  | nil => exact ⟨m, by cases fuel <;> rfl, Steady.refl _, by simp⟩
  | cons e rest ih =>
    obtain ⟨s, items⟩ := e
    obtain ⟨found, later⟩ := linked
    obtain ⟨fresh, distinct⟩ := List.nodup_cons.1 distinct
    obtain ⟨fuel, rfl⟩ : ∃ n, fuel = n + 1 := ⟨fuel - 1, by simp at enough; omega⟩
    obtain ⟨m₁, released, steady₁, view₁⟩ := freeChunk_live found
    have still : m₁.heap.Linked none rest := later.congr fun t member => by
      rw [view₁, if_neg]
      rintro rfl
      exact fresh member
    obtain ⟨m', ran, steady, view⟩ := ih still distinct (by simpa using enough)
    refine ⟨m', ?_, steady₁.trans steady, ?_⟩
    · rw [Chain.start_cons, releaseChain, run_bind_ok (run_inspect_ok (segmentRecord_ok found)), run_bind_ok released]
      exact ran
    · intro x
      rw [view, view₁]
      by_cases same : s = x
      · simp [same]
      · have other : x ≠ s := fun same' => same same'.symm
        simp only [List.map_cons, List.mem_cons, other, false_or, if_neg same]

end SegList

end ChunkHeap

import ChunkHeap.Proofs.Chain.Blocks
import ChunkHeap.Proofs.View

/-!
# Chains of segments

A chain is the list of its segments, each with the references it holds.
`Heap.Linked` says that the heap holds these segments and links each to the
next; it splits over `++`, with the link out of the first part as a parameter,
so a change in the middle of a chain is argued on the part it touches.

`Heap.Chained` adds what a record keeps about its chain: head, tail, length and
cursor. The walks of the reading functions follow from it: `segListItems_eq`,
`segmentCount_eq`, and `locate_spec` for access by position.
-/

namespace ChunkHeap
set_option autoImplicit false

/-- Segments in order, each with the references it holds. -/
abbrev Chain : Type :=
  List (Handle × List Handle)

namespace Chain

/-- The first segment, or `after` if there is none. -/
def start (c : Chain) (after : Option Handle) : Option Handle :=
  (c.head?.map Prod.fst).or after

@[simp] theorem start_nil (after : Option Handle) : start [] after = after := rfl

@[simp] theorem start_cons (s : Handle) (items : List Handle) (rest : Chain) (after : Option Handle) :
    start ((s, items) :: rest) after = some s := rfl

theorem start_append (c d : Chain) (after : Option Handle) : start (c ++ d) after = start c (start d after) := by
  cases c <;> rfl

/-- The start depends on the segments only. -/
theorem start_congr {c d : Chain} (same : c.map Prod.fst = d.map Prod.fst) (after : Option Handle) :
    start c after = start d after := by
  rw [start, start, ← List.head?_map, ← List.head?_map, same]

end Chain

namespace Heap

/-- The heap holds the segments of a chain, each linked to the next and the last
one to `after`. -/
def Linked (h : Heap) (after : Option Handle) : Chain → Prop
  | [] => True
  | (s, items) :: rest =>
    h.find? s = some (.segment { items, next := Chain.start rest after }) ∧ h.Linked after rest

variable {h g : Heap} {after : Option Handle} {c d : Chain}

theorem linked_append : h.Linked after (c ++ d) ↔ h.Linked (Chain.start d after) c ∧ h.Linked after d := by
  induction c with
  | nil => simp [Linked]
  | cons e rest ih =>
    obtain ⟨s, items⟩ := e
    simp only [List.cons_append, Linked, ih, Chain.start_append, and_assoc]

theorem Linked.congr (linked : h.Linked after c) (same : ∀ s ∈ c.map Prod.fst, g.find? s = h.find? s) :
    g.Linked after c := by
  induction c with
  | nil => trivial
  | cons e rest ih =>
    obtain ⟨s, items⟩ := e
    obtain ⟨here, later⟩ := linked
    refine ⟨?_, ih later fun t member => same t (List.mem_cons_of_mem s member)⟩
    rw [same s List.mem_cons_self, here]

/-- The end of a chain may be replaced by one that starts alike. -/
theorem Linked.splice {e : Chain} (linked : h.Linked after (c ++ d))
    (same : ∀ s ∈ c.map Prod.fst, g.find? s = h.find? s) (replaced : g.Linked after e)
    (starts : Chain.start e after = Chain.start d after) : g.Linked after (c ++ e) := by
  refine linked_append.2 ⟨?_, replaced⟩
  rw [starts]
  exact (linked_append.1 linked).1.congr same

/-- Edits that miss a chain leave it linked. -/
theorem Linked.edited {S : Handle → Prop} (linked : h.Linked after c) (edited : Edited S h g)
    (missed : ∀ s ∈ c.map Prod.fst, ¬ S s) : g.Linked after c :=
  linked.congr fun s member => edited.outside s (missed s member)

theorem Linked.getElem {chain : Chain} {n : Nat} {s : Handle} {items : List Handle} (linked : h.Linked none chain)
    (here : chain[n]? = some (s, items)) :
    h.find? s = some (.segment { items, next := chain[n + 1]?.map Prod.fst }) := by
  induction chain generalizing n with
  | nil => simp at here
  | cons e rest ih =>
    obtain ⟨t, held⟩ := e
    obtain ⟨first, later⟩ := linked
    cases n with
    | zero =>
      obtain ⟨rfl, rfl⟩ : t = s ∧ held = items := by simpa using here
      rw [first]
      cases rest <;> rfl
    | succ n =>
      rw [List.getElem?_cons_succ] at here ⊢
      exact ih later here

theorem Linked.segment {s : Handle} (linked : h.Linked after c) (member : s ∈ c.map Prod.fst) :
    ∃ r, h.find? s = some (.segment r) := by
  induction c with
  | nil => simp at member
  | cons e rest ih =>
    obtain ⟨t, held⟩ := e
    obtain ⟨first, later⟩ := linked
    rcases List.mem_cons.1 member with rfl | member
    · exact ⟨_, first⟩
    · exact ih later member

theorem Linked.ne_segment {x : Handle} {p : Payload} (linked : h.Linked after c) (found : h.find? x = some p)
    (other : p.tag ≠ .segment) : x ∉ c.map Prod.fst := by
  intro member
  obtain ⟨r, segment⟩ := linked.segment member
  rw [found] at segment
  cases segment
  exact other rfl

theorem Linked.ne_list {x s : Handle} {r : SegListRecord} (linked : h.Linked after c)
    (found : h.find? x = some (.seglist r)) (member : s ∈ c.map Prod.fst) : s ≠ x := by
  rintro rfl
  exact linked.ne_segment found (by simp [Payload.tag]) member

/-- The last segment may be given other references and another link. -/
theorem Linked.relink {front : Chain} {s : Handle} {items items' : List Handle} {link : Option Handle}
    (linked : h.Linked after (front ++ [(s, items)])) (fresh : s ∉ front.map Prod.fst) (edited : Edited (· = s) h g)
    (written : g.find? s = some (.segment { items := items', next := link })) :
    g.Linked link (front ++ [(s, items')]) := by
  obtain ⟨before, -⟩ := linked_append.1 linked
  exact linked_append.2 ⟨before.edited edited fun t member => ne_of_mem_of_not_mem member fresh, written, trivial⟩

/-- A segment may be given other references. -/
theorem Linked.write {front back : Chain} {s : Handle} {items items' : List Handle}
    (linked : h.Linked after (front ++ (s, items) :: back)) (distinct : ((front ++ (s, items) :: back).map Prod.fst).Nodup)
    (edited : Edited (· = s) h g)
    (written : g.find? s = some (.segment { items := items', next := Chain.start back after })) :
    g.Linked after (front ++ (s, items') :: back) := by
  rw [List.map_append, List.map_cons, List.nodup_append, List.nodup_cons] at distinct
  obtain ⟨-, ⟨behind, -⟩, apart⟩ := distinct
  have before : s ∉ front.map Prod.fst := fun member => apart s member s List.mem_cons_self rfl
  rw [List.append_cons] at linked ⊢
  obtain ⟨left, right⟩ := linked_append.1 linked
  refine linked_append.2 ⟨left.relink before edited written, right.edited edited ?_⟩
  exact fun t member => ne_of_mem_of_not_mem member behind

/-- The link out of a segment of a whole chain leads to another of its segments. -/
theorem Linked.next_mem {s t : Handle} {r : SegmentRecord} (linked : h.Linked none c) (member : s ∈ c.map Prod.fst)
    (found : h.find? s = some (.segment r)) (link : r.next = some t) : t ∈ c.map Prod.fst := by
  obtain ⟨⟨s, items⟩, listed, rfl⟩ := List.mem_map.1 member
  obtain ⟨n, here⟩ := List.mem_iff_getElem?.1 listed
  rw [linked.getElem here] at found
  cases found
  obtain ⟨e, there, rfl⟩ := Option.map_eq_some_iff.1 link
  exact List.mem_map_of_mem (List.mem_of_getElem? there)

/-- A segment of a chain holds references of the chain's contents. -/
theorem Linked.items_mem {s y : Handle} {r : SegmentRecord} (linked : h.Linked none c) (member : s ∈ c.map Prod.fst)
    (found : h.find? s = some (.segment r)) (held : y ∈ r.items) : y ∈ (c.map Prod.snd).flatten := by
  obtain ⟨⟨s, items⟩, listed, rfl⟩ := List.mem_map.1 member
  obtain ⟨n, here⟩ := List.mem_iff_getElem?.1 listed
  rw [linked.getElem here] at found
  cases found
  exact List.mem_flatten.2 ⟨items, List.mem_map_of_mem listed, held⟩

/-- What a chain holds, one of its segments holds. -/
theorem Linked.segment_of_item {y : Handle} (linked : h.Linked none c) (member : y ∈ (c.map Prod.snd).flatten) :
    ∃ s ∈ c.map Prod.fst, ∃ r, h.find? s = some (.segment r) ∧ y ∈ r.items := by
  obtain ⟨items, block, held⟩ := List.mem_flatten.1 member
  obtain ⟨⟨s, items⟩, listed, rfl⟩ := List.mem_map.1 block
  obtain ⟨n, here⟩ := List.mem_iff_getElem?.1 listed
  exact ⟨s, List.mem_map_of_mem listed, _, linked.getElem here, held⟩

/-- Where a chain starts settles what it is. -/
theorem Linked.unique (linked : h.Linked none c) (linked' : h.Linked none d)
    (starts : Chain.start c none = Chain.start d none) : c = d := by
  induction c generalizing d with
  | nil =>
    cases d with
    | nil => rfl
    | cons e rest => cases starts
  | cons e rest ih =>
    cases d with
    | nil => cases starts
    | cons f rest' =>
      obtain ⟨s, items⟩ := e
      obtain ⟨t, held⟩ := f
      obtain ⟨here, later⟩ := linked
      obtain ⟨here', later'⟩ := linked'
      obtain rfl : s = t := Option.some.inj starts
      rw [here] at here'
      injection here' with same
      injection same with same
      injection same with items_eq next_eq
      rw [items_eq, ih later later' next_eq]

/-- What leads to the start of a chain leads to its segments and references. -/
theorem Linked.reaches {starts : List Handle} (linked : h.Linked after c)
    (reached : ∀ s, Chain.start c after = some s → h.arena.Reaches starts s) :
    (∀ s ∈ c.map Prod.fst, h.arena.Reaches starts s) ∧
      ∀ y ∈ (c.map Prod.snd).flatten, h.arena.Reaches starts y := by
  induction c with
  | nil => simp
  | cons e rest ih =>
    obtain ⟨s, items⟩ := e
    obtain ⟨here, later⟩ := linked
    have head := reached s rfl
    obtain ⟨segments, references⟩ := ih later (by
      intro t link
      refine reaches_edge head here ?_
      simp [Payload.children, link])
    constructor
    · intro t member
      rcases List.mem_cons.1 member with rfl | member
      · exact head
      · exact segments t member
    · intro y member
      simp only [List.map_cons, List.flatten_cons, List.mem_append] at member
      rcases member with held | member
      · refine reaches_edge head here ?_
        simp [Payload.children, held]
      · exact references y member

/-- A chain that repeats no segment is no longer than the arena. -/
theorem Linked.length_le (linked : h.Linked after c) (distinct : (c.map Prod.fst).Nodup) :
    c.length ≤ h.arena.slots.size := by
  have count := Arena.length_le_size distinct (by
    intro s member
    obtain ⟨r, segment⟩ := linked.segment member
    obtain ⟨o, found, -⟩ := find?_eq_some_iff.1 segment
    exact ⟨o, found⟩)
  rwa [List.length_map] at count

/-! ### Walking a chain -/

theorem chainItems_eq {fuel : Nat} (linked : h.Linked none c) (enough : c.length ≤ fuel) :
    h.chainItems fuel (Chain.start c none) = .ok (c.map Prod.snd).flatten := by
  induction c generalizing fuel with
  | nil => cases fuel <;> rfl
  | cons e rest ih =>
    obtain ⟨s, items⟩ := e
    obtain ⟨here, later⟩ := linked
    cases fuel with
    | zero => simp at enough
    | succ fuel =>
      have shorter : rest.length ≤ fuel := by simpa using enough
      have tail := ih later shorter
      simp only [Chain.start_cons, chainItems, segmentRecord_ok here]
      show (do let rest ← h.chainItems fuel (Chain.start rest none); Except.ok (items ++ rest)) = _
      rw [tail]
      rfl

theorem chainLength_eq {fuel : Nat} (linked : h.Linked none c) (enough : c.length ≤ fuel) :
    h.chainLength fuel (Chain.start c none) = .ok c.length := by
  induction c generalizing fuel with
  | nil => cases fuel <;> rfl
  | cons e rest ih =>
    obtain ⟨s, items⟩ := e
    obtain ⟨here, later⟩ := linked
    cases fuel with
    | zero => simp at enough
    | succ fuel =>
      have shorter : rest.length ≤ fuel := by simpa using enough
      have tail := ih later shorter
      simp only [Chain.start_cons, chainLength, segmentRecord_ok here]
      show (do let rest ← h.chainLength fuel (Chain.start rest none); Except.ok (rest + 1)) = _
      rw [tail]
      rfl

/-- Walking `k` links from segment number `n` comes to segment number `n + k`. -/
theorem walk_eq {chain : Chain} {n k : Nat} {s t : Handle} {items held : List Handle} (linked : h.Linked none chain)
    (here : chain[n]? = some (s, items)) (there : chain[n + k]? = some (t, held)) : h.walk k s = .ok t := by
  induction k generalizing n s items with
  | zero =>
    rw [Nat.add_zero, here] at there
    cases there
    rfl
  | succ k ih =>
    have bound : n + 1 < chain.length := by
      have := (List.getElem?_eq_some_iff.1 there).1
      omega
    have next : chain[n + 1]? = some chain[n + 1] := List.getElem?_eq_getElem bound
    have onward := ih (n := n + 1) (s := chain[n + 1].1) next (by rwa [show n + 1 + k = n + (k + 1) by omega])
    rw [walk, segmentRecord_ok (linked.getElem here), next]
    exact onward

/-! ### A record and its chain -/

/-- The record `r` of a segmented list is right about its chain. -/
structure Chained (h : Heap) (r : SegListRecord) (chain : Chain) : Prop where
  linked : h.Linked none chain
  distinct : (chain.map Prod.fst).Nodup
  packed : Packed (chain.map Prod.snd)
  head : r.head = chain.head?.map Prod.fst
  tail : r.tail = chain.getLast?.map Prod.fst
  length : r.length = (chain.map Prod.snd).flatten.length
  cursor : ∀ n seg, r.cursor = some (n, seg) → (chain[n]?).map Prod.fst = some seg

variable {r : SegListRecord} {x : Handle}

theorem Chained.start (chained : h.Chained r c) : r.head = Chain.start c none := by
  rw [chained.head, Chain.start, Option.or_none]

/-- The contents of a list determine how many segments it has. -/
theorem Chained.length_chain (chained : h.Chained r c) :
    c.length = ((c.map Prod.snd).flatten.length + (segmentCapacity - 1)) / segmentCapacity := by
  rw [← chained.packed.length_eq, List.length_map]

theorem Chained.congr (chained : h.Chained r c) (same : ∀ s ∈ c.map Prod.fst, g.find? s = h.find? s) :
    g.Chained r c :=
  { chained with linked := chained.linked.congr same }

/-- A record stays right when its segments stay, up to one more behind them, and
head, tail and cursor with them. -/
theorem Chained.renew {d : Chain} {r' : SegListRecord} {t : Option Handle} (chained : h.Chained r c)
    (some_ : c ≠ []) (linked : g.Linked none d) (segments : d.map Prod.fst = c.map Prod.fst ++ t.toList)
    (fresh : ∀ s ∈ t, s ∉ c.map Prod.fst) (packed : Packed (d.map Prod.snd)) (head : r'.head = r.head)
    (tail : r'.tail = t.or r.tail) (length : r'.length = (d.map Prod.snd).flatten.length)
    (cursor : r'.cursor = r.cursor ∨ r'.cursor = none) : g.Chained r' d where
  linked := linked
  distinct := by
    rw [segments]
    refine List.nodup_append.2 ⟨chained.distinct, by cases t <;> simp, ?_⟩
    intro s member u later
    exact ne_of_mem_of_not_mem member (fresh u (by simpa using later))
  packed := packed
  head := by
    obtain ⟨e, rest, rfl⟩ := List.exists_cons_of_ne_nil some_
    rw [head, chained.head, ← List.head?_map, ← List.head?_map, segments, List.map_cons]
    rfl
  tail := by
    rw [tail, chained.tail, ← List.getLast?_map, ← List.getLast?_map, segments]
    cases t <;> simp
  length := length
  cursor := by
    intro n seg known
    rcases cursor with same | none
    · have before := chained.cursor n seg (same ▸ known)
      rw [← List.getElem?_map] at before ⊢
      rw [segments, List.getElem?_append_left (List.getElem?_eq_some_iff.1 before).1, before]
    · rw [none] at known
      cases known

/-- The segment that holds position `i`, and the chain in front of it and behind. -/
theorem Chained.cut (chained : h.Chained r c) {i : Nat} (inside : i < r.length) :
    ∃ front seg items back, c = front ++ (seg, items) :: back ∧ front.length = i / segmentCapacity ∧
      (front.map Prod.snd).flatten.length + i % segmentCapacity = i ∧ i % segmentCapacity < items.length ∧
      AllFull (front.map Prod.snd) := by
  rw [chained.length] at inside
  obtain ⟨as, b, bs, split, full, count, offset⟩ := chained.packed.split inside
  obtain ⟨front, rest, rfl, rfl, later⟩ := List.map_eq_append_iff.1 split
  obtain ⟨⟨seg, items⟩, back, rfl, rfl, rfl⟩ := List.map_eq_cons_iff.1 later
  rw [List.length_map] at count
  refine ⟨front, seg, items, back, rfl, count, ?_, offset, full⟩
  rw [full.length_flatten, List.length_map, count]
  exact Nat.div_add_mod i segmentCapacity

theorem segListItems_eq (found : h.find? x = some (.seglist r)) (chained : h.Chained r c) :
    h.segListItems x = .ok (c.map Prod.snd).flatten := by
  have walked := chainItems_eq chained.linked (chained.linked.length_le chained.distinct)
  rw [← chained.start] at walked
  rw [segListItems, segListRecord_ok found]
  show (do
    let items ← h.chainItems h.arena.slots.size r.head
    if items.length = r.length then Except.ok items else Except.error .brokenChain) = _
  rw [walked]
  show (if _ then _ else _) = _
  rw [if_pos chained.length.symm]

theorem segmentCount_eq (found : h.find? x = some (.seglist r)) (chained : h.Chained r c) :
    h.segmentCount x = .ok c.length := by
  have walked := chainLength_eq chained.linked (chained.linked.length_le chained.distinct)
  rw [← chained.start] at walked
  rw [segmentCount, segListRecord_ok found]
  exact walked

/-- The object is a live segmented list, and `c` is its chain. -/
def Carries (h : Heap) (x : Handle) (c : Chain) : Prop :=
  ∃ r, h.find? x = some (.seglist r) ∧ h.Chained r c

theorem Carries.unique (carries : h.Carries x c) (carries' : h.Carries x d) : c = d := by
  obtain ⟨r, found, chained⟩ := carries
  obtain ⟨r', found', chained'⟩ := carries'
  rw [found] at found'
  cases found'
  exact chained.linked.unique chained'.linked (chained.start.symm.trans chained'.start)

theorem Carries.linked (carries : h.Carries x c) : h.Linked none c :=
  carries.elim fun _ facts => facts.2.linked

/-- Seeking comes to the segment with the number sought, from the head or from
the cursor. -/
theorem seek_eq {chain : Chain} {target : Nat} {seg : Handle} {items : List Handle} (linked : h.Linked none chain)
    (head : r.head = chain.head?.map Prod.fst)
    (cursor : ∀ n seg, r.cursor = some (n, seg) → (chain[n]?).map Prod.fst = some seg)
    (here : chain[target]? = some (seg, items)) : h.seek r target = .ok seg := by
  have from_head : h.seekFromHead r target = .ok seg := by
    have bound : 0 < chain.length := by
      have := (List.getElem?_eq_some_iff.1 here).1
      omega
    obtain ⟨e, rest, rfl⟩ := List.exists_cons_of_length_pos bound
    rw [seekFromHead, head]
    exact walk_eq (n := 0) linked rfl (by rwa [Nat.zero_add])
  unfold seek
  split
  · rename_i number start known
    split
    · rename_i before
      have at_cursor := cursor number start known
      obtain ⟨⟨s, held⟩, place, rfl⟩ := Option.map_eq_some_iff.1 at_cursor
      exact walk_eq linked place (by rwa [show number + (target - number) = target by omega])
    · exact from_head
  · exact from_head

end Heap

namespace SegList

open HeapM Heap

variable {m : Machine} {r : SegListRecord} {c : Chain} {list seg : Handle} {index : Nat} {items : List Handle}

/-- Locating a position moves the cursor to its segment and does nothing else. -/
theorem locate_spec {chain : Chain} (found : m.heap.find? list = some (.seglist r)) (linked : m.heap.Linked none chain)
    (head : r.head = chain.head?.map Prod.fst)
    (cursor : ∀ n seg, r.cursor = some (n, seg) → (chain[n]?).map Prod.fst = some seg)
    (inside : index < r.length) (here : chain[index / segmentCapacity]? = some (seg, items)) :
    ∃ m', (locate list index).run m = (.ok (seg, index % segmentCapacity), m') ∧ Edited (· = list) m.heap m'.heap ∧
      m'.heap.find? list = some (.seglist { r with cursor := some (index / segmentCapacity, seg) }) := by
  refine ⟨m.put list (.seglist { r with cursor := some (index / segmentCapacity, seg) }), ?_,
    edited_seglist _ found, find?_setPayload_self found _⟩
  rw [locate, run_bind_ok (run_inspect_ok (segListRecord_ok found)), if_pos inside,
    run_bind_ok (run_inspect_ok (seek_eq linked head cursor here))]
  rfl

/-- A position past the end is an index error and changes nothing. -/
theorem run_locate_range (found : m.heap.find? list = some (.seglist r)) (outside : r.length ≤ index) :
    (locate list index).run m = (.error .segListRange, m) := by
  rw [locate, run_bind_ok (run_inspect_ok (segListRecord_ok found)), if_neg (by omega)]
  rfl

/-- An access fails at once unless the position is one of a segmented list. -/
theorem locate_fails_or (list : Handle) (index : Nat) (m : Machine) :
    (∃ e, (locate list index).run m = (.error e, m)) ∨
      ∃ r, m.heap.find? list = some (.seglist r) ∧ index < r.length := by
  cases read : m.heap.segListRecord list with
  | error e =>
    left
    exact ⟨e, by rw [locate, run_bind_error (by rw [run_inspect, read])]⟩
  | ok r =>
    have found := segListRecord_eq_ok_iff.1 read
    by_cases inside : index < r.length
    · exact .inr ⟨r, found, inside⟩
    · exact .inl ⟨_, run_locate_range found (by omega)⟩

/-- Whatever the heap is like, an access moves a cursor at most. -/
theorem locate_moves (list : Handle) (index : Nat) (m : Machine) :
    ((locate list index).run m).2 = m ∨ ∃ r cursor, m.heap.find? list = some (.seglist r) ∧
      ((locate list index).run m).2 = m.put list (.seglist { r with cursor := cursor }) := by
  rcases locate_fails_or list index m with ⟨e, failed⟩ | ⟨r, found, inside⟩
  · exact .inl (by rw [failed])
  · rw [locate, run_bind_ok (run_inspect_ok (segListRecord_ok found)), if_pos inside]
    cases sought : m.heap.seek r (index / segmentCapacity) with
    | error e => exact .inl (by rw [run_bind_error (by rw [run_inspect, sought])])
    | ok seg =>
      rw [run_bind_ok (run_inspect_ok sought)]
      exact .inr ⟨r, some (index / segmentCapacity, seg), found, rfl⟩

end SegList

end ChunkHeap

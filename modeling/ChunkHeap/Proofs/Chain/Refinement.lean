import ChunkHeap.Proofs.Chain.Layout

/-!
# Segmented lists are sequences

`SeqCall.onList` says what the operations of a segmented list do to a plain
sequence. In a heap in shape, a list that the roots lead to behaves like that
sequence (`SegList.refines_sequence`): an index error changes nothing, a growing
operation may find no room and then leaves the list as it was, and anything else
has the effect and the answer that the sequence has. Whatever else the roots lead
to is left alone, also when the operation had to collect.
-/

namespace ChunkHeap
set_option autoImplicit false

/-- A call on a sequence. -/
inductive SeqCall where
  | append (x : Handle)
  | insert (i : Nat) (x : Handle)
  | remove (i : Nat)
  | set (i : Nat) (x : Handle)
  | get (i : Nat)
  | clear

namespace SeqCall

/-- What a call does to a plain sequence, and its answer; nothing where the index
is out of range. -/
def onList : SeqCall → List Handle → Option (List Handle × Option Handle)
  | append x, xs => some (xs ++ [x], none)
  | insert i x, xs => if i ≤ xs.length then some (xs.insertIdx i x, none) else none
  | remove i, xs => if i < xs.length then some (xs.eraseIdx i, none) else none
  | set i x, xs => if i < xs.length then some (xs.set i x, none) else none
  | get i, xs => xs[i]?.map fun x => (xs, some x)
  | clear, _ => some ([], none)

/-- The call on a segmented list. -/
def onHeap (list : Handle) : SeqCall → HeapM (Option Handle)
  | append x => do SegList.append list x; return none
  | insert i x => do SegList.insert list x i; return none
  | remove i => do SegList.remove list i; return none
  | set i x => do SegList.set list i x; return none
  | get i => some <$> SegList.get list i
  | clear => do SegList.clear list; return none

/-- The reference a call stores. -/
def stored : SeqCall → List Handle
  | append x | insert _ x | set _ x => [x]
  | _ => []

/-- Whether a call may need another segment. -/
def grows : SeqCall → Bool
  | append _ | insert _ _ => true
  | _ => false

end SeqCall

namespace Heap

variable {h g k : Heap} {s x y : Handle} {xs ys : List Handle} {c c' : Chain} {p : Payload}

/-- From `h` to `g` nothing happened but to the list `s`, which holds `xs` now; a
call has stored `stored` in it. -/
structure Resequenced (s : Handle) (stored xs : List Handle) (h g : Heap) : Prop where
  contents : g.segListItems s = .ok xs
  segments : g.segmentCount s = .ok ((xs.length + (segmentCapacity - 1)) / segmentCapacity)
  order : ∃ c, g.Carries s c
  others : ∀ y p, h.Rooted y → h.find? y = some p → y ≠ s → (∀ c, h.Carries s c → y ∉ c.map Prod.fst) →
    g.find? y = some p
  lists : ∀ t ys, h.Rooted t → t ≠ s → h.segListItems t = .ok ys → g.segListItems t = .ok ys
  roots : g.roots = h.roots
  config : g.config = h.config
  constants : g.constants = h.constants
  shaped : h.Unsegmented (h.collectionRoots []) → (∀ x ∈ stored, h.Element x) → g.Shaped

/-- A list whose contents can be read has a chain with these contents. -/
theorem Shaped.chain_of_items (shaped : h.Shaped) (contents : h.segListItems s = .ok xs) :
    ∃ r c, h.find? s = some (.seglist r) ∧ h.Chained r c ∧ (c.map Prod.snd).flatten = xs := by
  cases read : h.segListRecord s with
  | error e =>
    rw [segListItems, read] at contents
    cases contents
  | ok r =>
    have found := segListRecord_eq_ok_iff.1 read
    obtain ⟨c, chained⟩ := shaped.chains s r found
    rw [segListItems_eq found chained] at contents
    exact ⟨r, c, found, chained, Except.ok.inj contents⟩

/-- What a collection and a change of the chain of `s` come to. -/
theorem Shaped.resequenced {stored : List Handle} (shaped : h.Shaped) (rooted : h.Rooted s) (carries : h.Carries s c)
    (swept : Swept stored h g) (changed : Rechained s c g k c')
    (held : ∀ y ∈ (c'.map Prod.snd).flatten, y ∈ (c.map Prod.snd).flatten ∨ y ∈ stored) :
    Resequenced s stored (c'.map Prod.snd).flatten h k := by
  have ok := shaped.accounted
  have upkeep := (swept.upkeep ok).trans changed.toUpkeep
  obtain ⟨r, found, chained⟩ := id carries
  obtain ⟨r', found', chained'⟩ := changed.here
  have others : ∀ y p, h.Rooted y → h.find? y = some p → y ≠ s → y ∉ c.map Prod.fst → k.find? y = some p := by
    intro y p reached live other outside
    exact (changed.untouched ((swept.find? ok (reached.collected stored)).trans live) other outside).2
  refine ⟨segListItems_eq found' chained', ?_, ⟨c', changed.here⟩, ?_, ?_, upkeep.roots, upkeep.config,
    upkeep.constants, ?_⟩
  · rw [segmentCount_eq found' chained', chained'.length_chain]
  · exact fun y p reached live other outside => others y p reached live other (outside c carries)
  · intro t ys reached other contents
    obtain ⟨q, d, found_t, chained_t, rfl⟩ := shaped.chain_of_items contents
    have list : h.Carries t d := ⟨q, found_t, chained_t⟩
    have record := others t _ reached found_t other (carries.linked.ne_segment found_t (by simp [Payload.tag]))
    refine segListItems_eq record (chained_t.congr fun u member => ?_)
    obtain ⟨_, segment⟩ := chained_t.linked.segment member
    rw [segment, others u _ ((list.reaches reached).1 u member) segment (chained_t.linked.ne_list found member)
      (shaped.disjoint t s d c list carries other u member)]
  · intro apart elements
    have shaped_g := shaped.swept (apart.pinned elements) swept
    have carries_g : g.Carries s c := ⟨r, chained.swept found ok (rooted.collected stored) swept⟩
    refine shaped_g.rechained carries_g changed fun y member => ?_
    rcases held y member with old | new
    · exact shaped_g.item_element carries_g old
    · exact swept.element ok (elements y new) (.start (List.mem_append_right _ new))

end Heap

namespace SeqCall

open HeapM Heap

/-- How a call on the list `s` with the contents `xs` has to end. -/
inductive Outcome (call : SeqCall) (s : Handle) (xs : List Handle) (m : Machine) :
    Except Error (Option Handle) × Machine → Prop
  /-- The index is out of range, and nothing has changed. -/
  | outOfRange {e : Error} (effect : call.onList xs = none) (index : e.kind = .index) : Outcome call s xs m (.error e, m)
  /-- The call has the effect and the answer it has on the sequence. -/
  | done {ys : List Handle} {answer : Option Handle} {m' : Machine} (effect : call.onList xs = some (ys, answer))
      (after : Resequenced s call.stored ys m.heap m'.heap) : Outcome call s xs m (.ok answer, m')
  /-- A segment is needed and there is no room for one. The contents, the record
  and the segments of the list are as before. -/
  | noRoom {e : Error} {m' : Machine} (effect : call.onList xs ≠ none) (grows : call.grows = true)
      (memory : e.kind = .memory) (full : xs.length % segmentCapacity = 0)
      (refused : ¬ m'.heap.Admits (Payload.segment {}).chunkBytes)
      (after : Resequenced s call.stored xs m.heap m'.heap)
      (same : ∀ c, m.heap.Carries s c → ∀ t ∈ s :: c.map Prod.fst, m'.heap.find? t = m.heap.find? t) :
      Outcome call s xs m (.error e, m')

variable {call : SeqCall} {m : Machine} {s x : Handle} {r : SegListRecord} {c : Chain} {ys : List Handle}

/-- A growing operation ends as the call for it has to. -/
theorem Outcome.of_grown {result : Except Error Unit × Machine} (shaped : m.heap.Shaped) (rooted : m.heap.Rooted s)
    (found : m.heap.find? s = some (.seglist r)) (chained : m.heap.Chained r c) (stored : call.stored = [x])
    (grows : call.grows = true) (effect : call.onList (c.map Prod.snd).flatten = some (ys, none))
    (held : ∀ y ∈ ys, y ∈ (c.map Prod.snd).flatten ∨ y ∈ [x])
    (grown : Grown s x c ys m.heap result) :
    Outcome call s (c.map Prod.snd).flatten m (result.1.map fun _ => none, result.2) := by
  have carries : m.heap.Carries s c := ⟨r, found, chained⟩
  cases grown with
  | @failed e m' swept memory full refused =>
    have kept := chained.swept found shaped.accounted (rooted.collected [x]) swept
    have unchanged : Rechained s c m'.heap m'.heap c := (Edited.refl _ _).rechained ⟨r, kept⟩ rfl
    refine .noRoom (by simp [effect]) grows memory full refused ?_ ?_
    · rw [stored]
      exact shaped.resequenced rooted carries swept unchanged fun y member => .inl member
    · intro d carries' t member
      obtain rfl := carries.unique carries'
      refine swept.find? shaped.accounted ?_
      rcases List.mem_cons.1 member with rfl | member
      · exact rooted.collected [x]
      · exact (carries.reaches (rooted.collected [x])).1 t member
  | @grown g m' c' swept changed items =>
    subst items
    refine .done effect ?_
    rw [stored]
    exact shaped.resequenced rooted carries swept changed held

/-- An operation that allocates nothing ends as the call for it has to. -/
theorem Outcome.of_changed {c' : Chain} {m' : Machine} {answer : Option Handle} (shaped : m.heap.Shaped)
    (rooted : m.heap.Rooted s) (carries : m.heap.Carries s c) (changed : Rechained s c m.heap m'.heap c')
    (effect : call.onList (c.map Prod.snd).flatten = some ((c'.map Prod.snd).flatten, answer))
    (held : ∀ y ∈ (c'.map Prod.snd).flatten, y ∈ (c.map Prod.snd).flatten ∨ y ∈ call.stored) :
    Outcome call s (c.map Prod.snd).flatten m (.ok answer, m') :=
  .done effect (shaped.resequenced rooted carries (.inl rfl) changed held)

/-- An operation with no answer of its own, as a call. -/
theorem run_unanswered (op : HeapM Unit) (m : Machine) :
    (do op; return none : HeapM (Option Handle)).run m = ((op.run m).1.map fun _ => none, (op.run m).2) := by
  rw [run_bind]
  rcases op.run m with ⟨_ | _, _⟩ <;> rfl

end SeqCall

open SeqCall Heap HeapM in
/-- A segmented list that the roots lead to behaves like the plain sequence of its
contents, in every heap in shape. -/
theorem SegList.refines_sequence (call : SeqCall) {m : Machine} {s : Handle} {xs : List Handle}
    (shaped : m.heap.Shaped) (rooted : m.heap.Rooted s) (contents : m.heap.segListItems s = .ok xs) :
    call.Outcome s xs m ((call.onHeap s).run m) := by
  obtain ⟨r, c, found, chained, rfl⟩ := shaped.chain_of_items contents
  have carries : m.heap.Carries s c := ⟨r, found, chained⟩
  have reached := fun x => rooted.collected [x]
  cases call with
  | append x =>
    rw [onHeap, run_unanswered]
    refine .of_grown shaped rooted found chained rfl rfl rfl ?_ (append_spec x found chained shaped.accounted (reached x))
    exact fun y member => List.mem_append.1 member
  | insert i x =>
    rw [onHeap, run_unanswered]
    by_cases inside : i ≤ (c.map Prod.snd).flatten.length
    · refine .of_grown shaped rooted found chained rfl rfl (if_pos inside) ?_
        (insert_spec x found chained shaped.accounted (reached x) (chained.length ▸ inside))
      intro y member
      rcases List.eq_or_mem_of_mem_insertIdx member with rfl | old
      · exact .inr (List.mem_singleton.2 rfl)
      · exact .inl old
    · rw [run_insert_range x found (by rw [chained.length]; omega)]
      exact .outOfRange (if_neg inside) rfl
  | remove i =>
    rw [onHeap, run_unanswered]
    by_cases inside : i < (c.map Prod.snd).flatten.length
    · obtain ⟨m', c', removed, changed, items⟩ := remove_spec found chained (chained.length ▸ inside)
      rw [removed]
      refine .of_changed shaped rooted carries changed (by rw [onList, if_pos inside, items]) ?_
      exact fun y member => .inl (List.mem_of_mem_eraseIdx (items ▸ member))
    · rw [SegList.remove, run_bind_error (run_locate_range found (by rw [chained.length]; omega))]
      exact .outOfRange (if_neg inside) rfl
  | set i x =>
    rw [onHeap, run_unanswered]
    by_cases inside : i < (c.map Prod.snd).flatten.length
    · obtain ⟨m', c', stored, changed, items⟩ := set_spec x found chained (chained.length ▸ inside)
      rw [stored]
      refine .of_changed shaped rooted carries changed (by rw [onList, if_pos inside, items]) ?_
      intro y member
      rcases List.mem_or_eq_of_mem_set (items ▸ member) with old | rfl
      · exact .inl old
      · exact .inr (List.mem_singleton.2 rfl)
    · rw [SegList.set, run_bind_error (run_locate_range found (by rw [chained.length]; omega))]
      exact .outOfRange (if_neg inside) rfl
  | get i =>
    rw [onHeap, map_eq_pure_bind]
    by_cases inside : i < (c.map Prod.snd).flatten.length
    · obtain ⟨x, m', here, read, changed⟩ := get_spec found chained (chained.length ▸ inside)
      rw [run_bind_ok read]
      exact .of_changed shaped rooted carries changed (by rw [onList, here]; rfl) fun y member => .inl member
    · have failed : (SegList.get s i).run m = (.error .segListRange, m) := by
        rw [SegList.get, run_bind_error (run_locate_range found (by rw [chained.length]; omega))]
      rw [run_bind_error failed]
      refine .outOfRange ?_ rfl
      rw [onList, List.getElem?_eq_none (by omega)]
      rfl
  | clear =>
    rw [onHeap, run_unanswered]
    obtain ⟨m', cleared, changed⟩ := clear_spec found chained
    rw [cleared]
    exact .of_changed shaped rooted carries changed rfl fun y member => by cases member

namespace Heap

/-- The contents of the list in `brimful`: a full segment, with the list itself
among its references. -/
def brimfulItems : List Handle :=
  [⟨1⟩, ⟨0⟩, ⟨0⟩, ⟨1⟩, ⟨0⟩, ⟨0⟩, ⟨0⟩, ⟨1⟩]

def brimfulRecord : SegListRecord where
  head := some ⟨2⟩
  tail := some ⟨2⟩
  length := 8
  cursor := some (0, ⟨2⟩)

/-- A rooted list of eight references in one segment. Another segment fits only
after the integer, which nothing leads to, has been collected. -/
def brimful : Heap where
  arena := {
    slots := #[
      .live { header := { tag := .none, chunkBytes := 8 }, payload := .none },
      .live { header := { tag := .seglist, chunkBytes := 8 }, payload := .seglist brimfulRecord },
      .live { header := { tag := .segment, chunkBytes := 20 }, payload := .segment { items := brimfulItems } },
      .live { header := { tag := .int, chunkBytes := 8 }, payload := .int 5 }]
    liveCount := 4 }
  roots := { stack := [⟨1⟩] }
  config := { arenaBytes := 56, maxChunkBytes := 56 }
  bytesInUse := 44

theorem brimful_find? {x : Handle} {p : Payload} (found : brimful.find? x = some p) :
    (x = ⟨0⟩ ∧ p = .none) ∨ (x = ⟨1⟩ ∧ p = .seglist brimfulRecord) ∨
      (x = ⟨2⟩ ∧ p = .segment { items := brimfulItems }) ∨ (x = ⟨3⟩ ∧ p = .int 5) := by
  match x with
  | ⟨0⟩ => exact .inl ⟨rfl, (Option.some.inj found).symm⟩
  | ⟨1⟩ => exact .inr (.inl ⟨rfl, (Option.some.inj found).symm⟩)
  | ⟨2⟩ => exact .inr (.inr (.inl ⟨rfl, (Option.some.inj found).symm⟩))
  | ⟨3⟩ => exact .inr (.inr (.inr ⟨rfl, (Option.some.inj found).symm⟩))
  | ⟨n + 4⟩ => simp [find?, brimful, Arena.get?] at found

theorem brimful_chained : brimful.Chained brimfulRecord [(⟨2⟩, brimfulItems)] where
  linked := ⟨rfl, trivial⟩
  distinct := by simp
  packed := ⟨by decide, by decide⟩
  head := rfl
  tail := rfl
  length := rfl
  cursor := by
    intro n seg known
    cases known
    rfl

theorem brimful_accounted : brimful.Accounted where
  arena := {
    freeList := by
      refine ⟨[], rfl, List.nodup_nil, ?_, rfl⟩
      intro i next found
      match i with
      | 0 | 1 | 2 | 3 => cases found
      | n + 4 => simp [brimful] at found
    live := rfl }
  bytes := rfl

theorem brimful_shaped : brimful.Shaped where
  accounted := brimful_accounted
  headed := by
    intro x o found
    match x with
    | ⟨0⟩ | ⟨1⟩ | ⟨2⟩ | ⟨3⟩ =>
      cases found
      exact ⟨rfl, rfl⟩
    | ⟨n + 4⟩ => simp [brimful, Arena.get?] at found
  refs := by
    intro x p found y member
    rcases brimful_find? found with ⟨rfl, rfl⟩ | ⟨rfl, rfl⟩ | ⟨rfl, rfl⟩ | ⟨rfl, rfl⟩
    · cases member
    · cases member
    · have listed : y = ⟨0⟩ ∨ y = ⟨1⟩ := by
        simp only [Payload.refs, brimfulItems, List.mem_cons, List.not_mem_nil] at member
        tauto
      rcases listed with rfl | rfl
      · exact ⟨.none, rfl, by decide⟩
      · exact ⟨_, rfl, by decide⟩
    · cases member
  chains := by
    intro x r found
    rcases brimful_find? found with ⟨-, same⟩ | ⟨-, same⟩ | ⟨-, same⟩ | ⟨-, same⟩ <;> cases same
    exact ⟨_, brimful_chained⟩
  disjoint := by
    rintro x y c d ⟨r, found, -⟩ ⟨r', found', -⟩ different
    rcases brimful_find? found with ⟨-, same⟩ | ⟨rfl, -⟩ | ⟨-, same⟩ | ⟨-, same⟩ <;> try cases same
    rcases brimful_find? found' with ⟨-, same⟩ | ⟨rfl, -⟩ | ⟨-, same⟩ | ⟨-, same⟩ <;> try cases same
    exact absurd rfl different
  covered := by
    intro s r found
    rcases brimful_find? found with ⟨-, same⟩ | ⟨-, same⟩ | ⟨rfl, -⟩ | ⟨-, same⟩ <;> try cases same
    exact ⟨⟨1⟩, _, ⟨_, rfl, brimful_chained⟩, by simp⟩

end Heap

/-- Inserting into a full list splits it over two segments, after a collection. -/
theorem SegList.refines_sequence_brimful :
    Heap.brimful.Shaped ∧ Heap.brimful.Rooted ⟨1⟩ ∧ Heap.brimful.segListItems ⟨1⟩ = .ok Heap.brimfulItems ∧
      (SeqCall.insert 3 ⟨1⟩).Outcome ⟨1⟩ Heap.brimfulItems ⟨Heap.brimful, #[]⟩
        (((SeqCall.insert 3 ⟨1⟩).onHeap ⟨1⟩).run ⟨Heap.brimful, #[]⟩) ∧
      (((SeqCall.insert 3 ⟨1⟩).onHeap ⟨1⟩).run ⟨Heap.brimful, #[]⟩).1 = .ok none := by
  have rooted : Heap.brimful.Rooted ⟨1⟩ := .start (by decide)
  have contents : Heap.brimful.segListItems ⟨1⟩ = .ok Heap.brimfulItems := by decide +kernel
  exact ⟨Heap.brimful_shaped, rooted, contents, SegList.refines_sequence _ Heap.brimful_shaped rooted contents,
    by decide +kernel⟩

end ChunkHeap

import ChunkHeap.Proofs.Chain.Refinement
import ChunkHeap.Proofs.Checked
import ChunkHeap.Proofs.Integrity

/-!
# What a segmented list costs

A segmented list is charged for its own chunk and for one chunk a segment, and it
has as many segments as its length needs. So as long as nothing is collected, a
call on a list moves the figures of the heap by the segments that its length has
gained or lost, whatever came before.

The figures are sums over the live objects. When a chain changes
(`Rechained.handles_perm`), the live objects are the segments of the chain, before
and after, and others that keep their chunks.
-/

namespace ChunkHeap
set_option autoImplicit false

/-- The segments that `n` references take. -/
def segmentsFor (n : Nat) : Nat :=
  (n + (segmentCapacity - 1)) / segmentCapacity

namespace Heap

variable {h g : Heap} {x y s : Handle} {p : Payload} {c c' d : Chain} {xs ys : List Handle}

/-- The bytes charged for an object. -/
def chunkOf (h : Heap) (x : Handle) : Nat :=
  ((h.arena.get? x).map fun o => o.header.chunkBytes).getD 0

/-- The length of a segmented list, as on record. -/
def lengthOf (h : Heap) (x : Handle) : Nat :=
  (h.segListLength x).toOption.getD 0

/-- The segments that lists need for their lengths. -/
def segmentsOf (h : Heap) (lists : List Handle) : Nat :=
  total (fun x => segmentsFor (h.lengthOf x)) lists

theorem Headed.chunkOf (headed : h.Headed) (found : h.find? x = some p) : h.chunkOf x = p.chunkBytes := by
  obtain ⟨o, live, rfl⟩ := find?_eq_some_iff.1 found
  rw [Heap.chunkOf, live]
  exact (headed x o live).2

/-- The bytes in use are what the live objects are charged. -/
theorem Accounted.bytes_eq (ok : h.Accounted) : h.bytesInUse = total h.chunkOf h.arena.handles := by
  rw [ok.bytes, Arena.handles, Arena.chunkTotal, Arena.weight, total_eq_sum, total_eq_sum, List.map_map]
  refine congrArg List.sum (List.map_congr_left fun e member => ?_)
  rw [Function.comp_apply, chunkOf, Arena.mem_objects_iff.1 member]
  rfl

theorem Accounted.live_eq (ok : h.Accounted) : h.stats.liveObjects = h.arena.handles.length := by
  rw [Arena.length_handles]
  exact ok.arena.live

theorem mem_handles_iff_find? : x ∈ h.arena.handles ↔ ∃ p, h.find? x = some p := by
  rw [Arena.mem_handles_iff, ← isLive_iff_find?, isLive_iff]

theorem Carries.length (carries : h.Carries s c) : h.lengthOf s = (c.map Prod.snd).flatten.length := by
  obtain ⟨r, found, chained⟩ := carries
  rw [lengthOf, segListLength_ok found, ← chained.length]
  rfl

/-- A list has the segments that its length needs. -/
theorem Carries.segments (carries : h.Carries s c) : c.length = segmentsFor (h.lengthOf s) := by
  rw [carries.length]
  obtain ⟨r, found, chained⟩ := carries
  exact chained.length_chain

/-- A list is charged for itself and for each segment. -/
theorem Carries.charge (carries : h.Carries s c) (headed : h.Headed) :
    total h.chunkOf (s :: c.map Prod.fst) = 8 + 20 * segmentsFor (h.lengthOf s) := by
  have each : ∀ n ∈ (c.map Prod.fst).map h.chunkOf, n = 20 := by
    intro n member
    obtain ⟨t, inside, rfl⟩ := List.mem_map.1 member
    obtain ⟨r, found⟩ := carries.linked.segment inside
    rw [headed.chunkOf found, Payload.chunkBytes_segment]
  have count := carries.segments
  obtain ⟨r, found, -⟩ := carries
  rw [total_cons, headed.chunkOf found, Payload.chunkBytes_seglist, total_eq_sum, List.sum_eq_card_nsmul _ _ each,
    List.length_map, List.length_map, count, Nat.nsmul_eq_mul, Nat.mul_comm]

/-! ### One chain changed -/

/-- The live objects are the segments of a chain and the others. -/
theorem Carries.handles_perm {others : List Handle} (carries : h.Carries s c) (distinct : others.Nodup)
    (listed : ∀ y, y ∈ others ↔ (∃ p, h.find? y = some p) ∧ y ∉ c.map Prod.fst) :
    h.arena.handles.Perm (c.map Prod.fst ++ others) := by
  obtain ⟨r, -, chained⟩ := carries
  apply (List.perm_ext_iff_of_nodup h.arena.handles_nodup _).2
  · intro y
    rw [mem_handles_iff_find?, List.mem_append, listed]
    by_cases member : y ∈ c.map Prod.fst
    · obtain ⟨t, live⟩ := chained.linked.segment member
      simp [member, live]
    · simp [member]
  · apply List.nodup_append.2 ⟨chained.distinct, distinct, _⟩
    rintro y left _ right rfl
    exact ((listed y).1 right).2 left

/-- When one chain changes, the other live objects stay, with their chunks. -/
theorem Rechained.handles_perm (changed : Rechained x c h g c') (carries : h.Carries x c) (headed : h.Headed) :
    ∃ others, h.arena.handles.Perm (c.map Prod.fst ++ others) ∧ g.arena.handles.Perm (c'.map Prod.fst ++ others) ∧
      ∀ y ∈ others, g.chunkOf y = h.chunkOf y := by
  obtain ⟨r, list, chained⟩ := id carries
  obtain ⟨r', list', chained'⟩ := id changed.here
  have headed' := changed.headed headed
  let others := h.arena.handles.filter fun y => y ∉ c.map Prod.fst
  have distinct : others.Nodup := h.arena.handles_nodup.filter _
  have listed : ∀ y, y ∈ others ↔ (∃ p, h.find? y = some p) ∧ y ∉ c.map Prod.fst := by
    intro y
    rw [List.mem_filter, mem_handles_iff_find?, decide_eq_true_eq]
  -- the others before are the others after
  have listed' : ∀ y, y ∈ others ↔ (∃ p, g.find? y = some p) ∧ y ∉ c'.map Prod.fst := by
    intro y
    rw [listed]
    by_cases same : y = x
    · subst same
      have outside : y ∉ c.map Prod.fst := fun member => chained.linked.ne_list list member rfl
      have outside' : y ∉ c'.map Prod.fst := fun member => chained'.linked.ne_list list' member rfl
      exact ⟨fun _ => ⟨⟨_, list'⟩, outside'⟩, fun _ => ⟨⟨_, list⟩, outside⟩⟩
    · constructor
      · rintro ⟨⟨p, live⟩, away⟩
        obtain ⟨away', live'⟩ := changed.untouched live same away
        exact ⟨⟨p, live'⟩, away'⟩
      · rintro ⟨⟨p, live⟩, away⟩
        obtain ⟨away', live'⟩ := changed.was_there live same away
        exact ⟨⟨p, live'⟩, away'⟩
  refine ⟨others, carries.handles_perm distinct listed, changed.here.handles_perm distinct listed', ?_⟩
  intro y member
  obtain ⟨⟨p, live⟩, away⟩ := (listed y).1 member
  by_cases same : y = x
  · subst same
    rw [headed.chunkOf list, headed'.chunkOf list', Payload.chunkBytes_seglist, Payload.chunkBytes_seglist]
  · rw [headed.chunkOf live, headed'.chunkOf (changed.untouched live same away).2]

/-- From `h` to `g` the live objects and the bytes in use have moved by the segments from `n` to `n'`. -/
structure Moved (n n' : Nat) (h g : Heap) : Prop where
  objects : (g.stats.liveObjects : Int) - h.stats.liveObjects = (n' : Int) - n
  bytes : (g.bytesInUse : Int) - h.bytesInUse = 20 * ((n' : Int) - n)

theorem Moved.refl (n : Nat) (h : Heap) : Moved n n h h := by
  constructor <;> omega

theorem Moved.trans {k : Heap} {n n' n'' : Nat} (first : Moved n n' h g) (second : Moved n' n'' g k) : Moved n n'' h k := by
  obtain ⟨objects, bytes⟩ := first
  obtain ⟨objects', bytes'⟩ := second
  constructor <;> omega

/-- What one list moves, seen as one of many. -/
theorem Moved.among {lists : List Handle}
    (moved : Moved (segmentsFor (h.lengthOf x)) (segmentsFor (g.lengthOf x)) h g) (distinct : lists.Nodup)
    (member : x ∈ lists) (same : ∀ y ∈ lists, y ≠ x → h.lengthOf y = g.lengthOf y) :
    Moved (h.segmentsOf lists) (g.segmentsOf lists) h g := by
  have apart : ∀ k : Heap, segmentsFor (k.lengthOf x) + ((lists.erase x).map fun y => segmentsFor (k.lengthOf y)).sum =
      k.segmentsOf lists := by
    intro k
    rw [segmentsOf, total_eq_sum]
    exact List.sum_map_erase (fun y => segmentsFor (k.lengthOf y)) member
  have others : ((lists.erase x).map fun y => segmentsFor (h.lengthOf y)) =
      (lists.erase x).map fun y => segmentsFor (g.lengthOf y) := by
    refine List.map_congr_left fun y inside => ?_
    obtain ⟨different, listed⟩ := distinct.mem_erase_iff.1 inside
    rw [same y listed different]
  have before := apart h
  have after := apart g
  rw [others] at before
  obtain ⟨objects, bytes⟩ := moved
  constructor <;> omega

/-- A chain is charged by the segment. -/
theorem Rechained.moved (changed : Rechained x c h g c') (carries : h.Carries x c) (shaped : h.Shaped) :
    Moved (segmentsFor (h.lengthOf x)) (segmentsFor (g.lengthOf x)) h g := by
  have ok := shaped.accounted
  have ok' := changed.accounted ok
  have headed' := changed.headed shaped.headed
  have charge := carries.charge shaped.headed
  have charge' := changed.here.charge headed'
  obtain ⟨others, perm, perm', same⟩ := changed.handles_perm carries shaped.headed
  have lists : g.chunkOf x = h.chunkOf x := by
    obtain ⟨r, list, -⟩ := carries
    obtain ⟨r', list', -⟩ := changed.here
    rw [shaped.headed.chunkOf list, headed'.chunkOf list', Payload.chunkBytes_seglist, Payload.chunkBytes_seglist]
  have rest : others.map g.chunkOf = others.map h.chunkOf := List.map_congr_left same
  rw [total_cons, total_eq_sum] at charge charge'
  constructor
  · have count := perm.length_eq
    have count' := perm'.length_eq
    rw [List.length_append, List.length_map, carries.segments] at count
    rw [List.length_append, List.length_map, changed.here.segments] at count'
    rw [ok.live_eq, ok'.live_eq]
    omega
  · rw [ok.bytes_eq, ok'.bytes_eq, total_eq_sum, total_eq_sum, (perm.map _).sum_eq, (perm'.map _).sum_eq,
      List.map_append, List.map_append, List.sum_append, List.sum_append, rest]
    omega

/-- Collections are counted. -/
theorem Swept.eq_of_uncollected {pins : List Handle} (swept : Swept pins h g) (quiet : g.collections = h.collections) :
    g = h := by
  rcases swept with rfl | rfl
  · rfl
  · rw [collectWith_heap] at quiet
    exact absurd quiet (Nat.succ_ne_self _)

theorem Shaped.carries_of_segListItems (shaped : h.Shaped) (contents : h.segListItems s = .ok xs) :
    ∃ c, h.Carries s c ∧ (c.map Prod.snd).flatten = xs := by
  obtain ⟨r, c, found, chained, items⟩ := shaped.chain_of_items contents
  exact ⟨c, ⟨r, found, chained⟩, items⟩

theorem Carries.segListItems (carries : h.Carries s c) : h.segListItems s = .ok (c.map Prod.snd).flatten := by
  obtain ⟨r, found, chained⟩ := carries
  exact segListItems_eq found chained

end Heap

namespace SeqCall

open HeapM Heap
open SegList (append_spec insert_spec run_insert_range remove_spec set_spec get_spec clear_spec run_locate_range)

variable {call : SeqCall} {calls : List (Handle × SeqCall)} {m : Machine} {s t x : Handle} {c d : Chain} {ys : List Handle}
  {outcome : Except Error (Option Handle) × Machine}

/-! ### One call -/

/-- What a call on the list `s`, which has the chain `c`, comes to when nothing is
collected: it fails and changes nothing, or the list has another chain. -/
inductive Settles (call : SeqCall) (s : Handle) (c : Chain) (m : Machine) : Except Error (Option Handle) × Machine → Prop
  | failed {e : Error} {m' : Machine} (same : m'.heap = m.heap) (kind : e.kind = .index ∨ e.kind = .memory) :
      Settles call s c m (.error e, m')
  | changed {answer : Option Handle} {m' : Machine} {c' : Chain} (changed : Rechained s c m.heap m'.heap c')
      (held : ∀ y ∈ (c'.map Prod.snd).flatten, y ∈ (c.map Prod.snd).flatten ∨ y ∈ call.stored) :
      Settles call s c m (.ok answer, m')

theorem Settles.of_grown {result : Except Error Unit × Machine} (grown : Grown s x c ys m.heap result)
    (quiet : result.2.heap.collections = m.heap.collections)
    (held : ∀ y ∈ ys, y ∈ (c.map Prod.snd).flatten ∨ y ∈ call.stored) :
    call.Settles s c m (result.1.map fun _ => none, result.2) := by
  cases grown with
  | failed swept memory _ _ => exact .failed (swept.eq_of_uncollected quiet) (.inr memory)
  | @grown g m' c' swept changed items =>
    obtain rfl := swept.eq_of_uncollected (changed.collections.symm.trans quiet)
    exact .changed changed (items ▸ held)

/-- Every call without a collection, whatever it stores. -/
theorem settles (call : SeqCall) (shaped : m.heap.Shaped) (carries : m.heap.Carries s c) (rooted : m.heap.Rooted s)
    (quiet : ((call.onHeap s).run m).2.heap.collections = m.heap.collections) :
    call.Settles s c m ((call.onHeap s).run m) := by
  obtain ⟨r, found, chained⟩ := carries
  have reached := fun x => rooted.collected [x]
  cases call with
  | append x =>
    rw [onHeap, run_unanswered] at quiet ⊢
    apply Settles.of_grown (append_spec x found chained shaped.accounted (reached x)) quiet
    exact fun y member => List.mem_append.1 member
  | insert i x =>
    rw [onHeap, run_unanswered] at quiet ⊢
    by_cases inside : i ≤ (c.map Prod.snd).flatten.length
    · apply Settles.of_grown (insert_spec x found chained shaped.accounted (reached x) (chained.length ▸ inside)) quiet
      intro y member
      rcases List.eq_or_mem_of_mem_insertIdx member with rfl | old
      · exact .inr (List.mem_singleton.2 rfl)
      · exact .inl old
    · rw [run_insert_range x found (by rw [chained.length]; omega)]
      exact .failed rfl (.inl rfl)
  | remove i =>
    rw [onHeap, run_unanswered]
    by_cases inside : i < (c.map Prod.snd).flatten.length
    · obtain ⟨m', c', removed, changed, items⟩ := remove_spec found chained (chained.length ▸ inside)
      rw [removed]
      exact .changed changed fun y member => .inl (List.mem_of_mem_eraseIdx (items ▸ member))
    · rw [SegList.remove, run_bind_error (run_locate_range found (by rw [chained.length]; omega))]
      exact .failed rfl (.inl rfl)
  | set i x =>
    rw [onHeap, run_unanswered]
    by_cases inside : i < (c.map Prod.snd).flatten.length
    · obtain ⟨m', c', stored, changed, items⟩ := set_spec x found chained (chained.length ▸ inside)
      rw [stored]
      apply Settles.changed changed
      intro y member
      rcases List.mem_or_eq_of_mem_set (items ▸ member) with old | rfl
      · exact .inl old
      · exact .inr (List.mem_singleton.2 rfl)
    · rw [SegList.set, run_bind_error (run_locate_range found (by rw [chained.length]; omega))]
      exact .failed rfl (.inl rfl)
  | get i =>
    rw [onHeap, map_eq_pure_bind]
    by_cases inside : i < (c.map Prod.snd).flatten.length
    · obtain ⟨x, m', -, read, changed⟩ := get_spec found chained (chained.length ▸ inside)
      rw [run_bind_ok read]
      exact .changed changed fun y member => .inl member
    · have failed : (SegList.get s i).run m = (.error .segListRange, m) := by
        rw [SegList.get, run_bind_error (run_locate_range found (by rw [chained.length]; omega))]
      rw [run_bind_error failed]
      exact .failed rfl (.inl rfl)
  | clear =>
    rw [onHeap, run_unanswered]
    obtain ⟨m', cleared, changed⟩ := clear_spec found chained
    rw [cleared]
    exact .changed changed fun y member => by cases member

namespace Settles

theorem carries (settles : call.Settles s c m outcome) (carries : m.heap.Carries s c) :
    ∃ c', outcome.2.heap.Carries s c' := by
  cases settles with
  | failed same _ => exact ⟨c, same ▸ carries⟩
  | changed changed _ => exact ⟨_, changed.here⟩

theorem other (settles : call.Settles s c m outcome) (shaped : m.heap.Shaped) (carries : m.heap.Carries s c)
    (different : t ≠ s) (carries' : m.heap.Carries t d) : outcome.2.heap.Carries t d := by
  cases settles with
  | failed same _ => exact same ▸ carries'
  | changed changed _ => exact changed.carries_other shaped carries different carries'

theorem orderly (settles : call.Settles s c m outcome) (orderly : m.heap.Orderly) (carries : m.heap.Carries s c)
    (live : ∀ x ∈ call.stored, m.heap.Element x) : outcome.2.heap.Orderly := by
  cases settles with
  | failed same _ => exact same ▸ orderly
  | changed changed held =>
    apply orderly.rechained carries changed
    intro y member
    rcases held y member with old | new
    · exact orderly.item_element carries old
    · exact live y new

theorem moved (settles : call.Settles s c m outcome) (shaped : m.heap.Shaped) (carries : m.heap.Carries s c) :
    Moved (segmentsFor (m.heap.lengthOf s)) (segmentsFor (outcome.2.heap.lengthOf s)) m.heap outcome.2.heap := by
  cases settles with
  | failed same _ =>
    rw [same]
    exact .refl _ _
  | changed changed _ => exact changed.moved carries shaped

theorem kind {e : Error} (settles : call.Settles s c m outcome) (failed : outcome.1 = .error e) :
    e.kind = .index ∨ e.kind = .memory := by
  cases settles with
  | failed _ kind =>
    cases failed
    exact kind
  | changed => cases failed

end Settles

/-! ### Any number of calls -/

/-- The machine after calls on segmented lists, one after the other, whatever their outcomes. -/
def runAll : List (Handle × SeqCall) → Machine → Machine
  | [], m => m
  | (target, call) :: rest, m => runAll rest ((call.onHeap target).run m).2

/-- No call triggers a collection, and when its turn comes each is about a list that
the roots lead to and stores a live object. -/
def Uncollected : List (Handle × SeqCall) → Machine → Prop
  | [], _ => True
  | (target, call) :: rest, m =>
    m.heap.Rooted target ∧ (∃ xs, m.heap.segListItems target = .ok xs) ∧ (∀ x ∈ call.stored, m.heap.Element x) ∧
      ((call.onHeap target).run m).2.heap.collections = m.heap.collections ∧
      Uncollected rest ((call.onHeap target).run m).2

/-- Calls leave a heap in order. -/
theorem Uncollected.orderly (ready : Uncollected calls m) (orderly : m.heap.Orderly) : (runAll calls m).heap.Orderly := by
  induction calls generalizing m with
  | nil => exact orderly
  | cons step rest ih =>
    obtain ⟨target, call⟩ := step
    obtain ⟨rooted, ⟨xs, contents⟩, live, quiet, later⟩ := ready
    obtain ⟨c, carries, -⟩ := orderly.carries_of_segListItems contents
    exact ih later ((call.settles orderly.toShaped carries rooted quiet).orderly orderly carries live)

/-- Calls move the figures by the segments that the lists have gained or lost. -/
theorem Uncollected.moved {lists : List Handle} (ready : Uncollected calls m) (orderly : m.heap.Orderly)
    (distinct : lists.Nodup) (targets : ∀ step ∈ calls, step.1 ∈ lists) (chains : ∀ t ∈ lists, ∃ c, m.heap.Carries t c) :
    Moved (m.heap.segmentsOf lists) ((runAll calls m).heap.segmentsOf lists) m.heap (runAll calls m).heap := by
  induction calls generalizing m with
  | nil => exact .refl _ _
  | cons step rest ih =>
    obtain ⟨target, call⟩ := step
    obtain ⟨rooted, ⟨xs, contents⟩, live, quiet, later⟩ := ready
    obtain ⟨c, carries, -⟩ := orderly.carries_of_segListItems contents
    have settles := call.settles orderly.toShaped carries rooted quiet
    have chains' : ∀ t ∈ lists, ∃ d, ((call.onHeap target).run m).2.heap.Carries t d := by
      intro t member
      by_cases same : t = target
      · exact same ▸ settles.carries carries
      · exact (chains t member).imp fun d carries' => settles.other orderly.toShaped carries same carries'
    have first : Moved (m.heap.segmentsOf lists) (((call.onHeap target).run m).2.heap.segmentsOf lists) m.heap
        ((call.onHeap target).run m).2.heap := by
      have member : target ∈ lists := targets (target, call) List.mem_cons_self
      apply (settles.moved orderly.toShaped carries).among distinct member
      -- the other lists keep their lengths
      intro t member different
      obtain ⟨d, carries'⟩ := chains t member
      rw [carries'.length, (settles.other orderly.toShaped carries different carries').length]
    exact first.trans (ih later (settles.orderly orderly carries live)
      (fun step member => targets step (List.mem_cons_of_mem _ member)) chains')

/-- What the heap is charged after calls on segmented lists that start at `m`. -/
structure Charges (calls : List (Handle × SeqCall)) (m : Machine) : Prop where
  orderly : (runAll calls m).heap.Orderly
  /-- Another call that takes a list from one length to another, on success or failure. -/
  next : ∀ (call : SeqCall) (s : Handle) (xs : List Handle), (runAll calls m).heap.Rooted s →
    (runAll calls m).heap.segListItems s = .ok xs →
    ((call.onHeap s).run (runAll calls m)).2.heap.collections = (runAll calls m).heap.collections →
    ∃ ys, ((call.onHeap s).run (runAll calls m)).2.heap.segListItems s = .ok ys ∧
      Moved (segmentsFor xs.length) (segmentsFor ys.length) (runAll calls m).heap
        ((call.onHeap s).run (runAll calls m)).2.heap ∧
      ∀ e, ((call.onHeap s).run (runAll calls m)).1 = .error e → e.kind = .index ∨ e.kind = .memory
  /-- The chunks of a list and its segments. -/
  charge : ∀ (s : Handle) (c : Chain) (xs : List Handle), (runAll calls m).heap.Carries s c →
    (runAll calls m).heap.segListItems s = .ok xs →
    total (runAll calls m).heap.chunkOf (s :: c.map Prod.fst) = 8 + 20 * segmentsFor xs.length
  /-- Every segment is in one chain. -/
  owned : ∀ (t : Handle) (r : SegmentRecord), (runAll calls m).heap.find? t = some (.segment r) →
    ∃! s, ∃ c, (runAll calls m).heap.Carries s c ∧ t ∈ c.map Prod.fst
  /-- All calls together. -/
  figures : ∀ lists : List Handle, lists.Nodup → (∀ step ∈ calls, step.1 ∈ lists) →
    (∀ t ∈ lists, ∃ xs, m.heap.segListItems t = .ok xs) →
    Moved (m.heap.segmentsOf lists) ((runAll calls m).heap.segmentsOf lists) m.heap (runAll calls m).heap
  /-- A list filled and emptied leaves nothing behind. -/
  emptied : ∀ s : Handle, (∀ step ∈ calls, step.1 = s) → m.heap.segListItems s = .ok [] →
    (runAll calls m).heap.segListItems s = .ok [] →
    (runAll calls m).heap.bytesInUse = m.heap.bytesInUse ∧
      (runAll calls m).heap.stats.liveObjects = m.heap.stats.liveObjects

/-- **A segmented list is charged by its length.** -/
theorem charges_follow_lengths (orderly : m.heap.Orderly) (ready : Uncollected calls m) : Charges calls m := by
  have orderly' := ready.orderly orderly
  have figures := fun (lists : List Handle) (distinct : lists.Nodup) => ready.moved orderly distinct
  refine ⟨orderly', ?_, ?_, ?_, ?_, ?_⟩
  · intro call s xs rooted contents quiet
    obtain ⟨c, carries, rfl⟩ := orderly'.carries_of_segListItems contents
    have settles := call.settles orderly'.toShaped carries rooted quiet
    have moved := settles.moved orderly'.toShaped carries
    obtain ⟨c', carries'⟩ := settles.carries carries
    rw [carries.length, carries'.length] at moved
    exact ⟨_, carries'.segListItems, moved, fun e failed => settles.kind failed⟩
  · intro s c xs carries contents
    rw [carries.segListItems] at contents
    cases contents
    rw [carries.charge orderly'.headed, carries.length]
  · intro t r segment
    obtain ⟨s, c, carries, member⟩ := orderly'.covered t r segment
    refine ⟨s, ⟨c, carries, member⟩, ?_⟩
    rintro s' ⟨c', carries', member'⟩
    exact orderly'.same_list carries' carries member' member
  · intro lists distinct targets lists'
    apply figures lists distinct targets
    intro t member
    obtain ⟨xs, contents⟩ := lists' t member
    exact (orderly.carries_of_segListItems contents).imp fun c facts => facts.1
  · intro s only empty empty'
    obtain ⟨c, carries, none⟩ := orderly.carries_of_segListItems empty
    obtain ⟨c', carries', none'⟩ := orderly'.carries_of_segListItems empty'
    have targets : ∀ step ∈ calls, step.1 ∈ [s] := fun step member => List.mem_singleton.2 (only step member)
    have moved := figures [s] (by simp) targets fun t member => ⟨c, List.mem_singleton.1 member ▸ carries⟩
    have before : m.heap.segmentsOf [s] = 0 := by
      rw [segmentsOf, total_cons, carries.length, none]
      rfl
    have after : (runAll calls m).heap.segmentsOf [s] = 0 := by
      rw [segmentsOf, total_cons, carries'.length, none']
      rfl
    obtain ⟨objects, bytes⟩ := moved
    constructor <;> omega

/-- Whether a call can be made without a collection, with a root for the list. -/
def peaceful (step : Handle × SeqCall) (m : Machine) : Bool :=
  m.heap.serves [step.1] step.2.stored && decide ((∃ xs, m.heap.segListItems step.1 = .ok xs) ∧
    ((step.2.onHeap step.1).run m).2.heap.collections = m.heap.collections)

theorem uncollected_of_peaceful (checked : passes (fun step m => ((step.2.onHeap step.1).run m).2) peaceful calls m = true) :
    Uncollected calls m := by
  refine of_passes (P := Uncollected) (fun _ => trivial) ?_ checked
  rintro ⟨target, call⟩ rest m checked later
  rw [peaceful, Bool.and_eq_true, decide_eq_true_eq] at checked
  obtain ⟨served, readable, quiet⟩ := checked
  obtain ⟨rooted, live⟩ := serves_spec served
  exact ⟨rooted target (by simp), readable, live, quiet, later⟩

theorem brimful_orderly : brimful.Orderly :=
  { brimful_shaped with roots := by decide }

/-- Calls that split a segment, miss, empty the list and fill it again. -/
abbrev chores : List (Handle × SeqCall) :=
  [.remove 2, .insert 0 ⟨1⟩, .set 8 ⟨0⟩, .clear, .append ⟨0⟩, .append ⟨1⟩, .get 1, .insert 3 ⟨0⟩, .clear].map fun call => (⟨1⟩, call)

/-- The heap loses the one segment that the list had. -/
theorem charges_follow_lengths_brimful :
    brimful.Orderly ∧ Uncollected chores ⟨brimful, #[]⟩ ∧ Charges chores ⟨brimful, #[]⟩ ∧
      brimful.bytesInUse = 44 ∧ (runAll chores ⟨brimful, #[]⟩).heap.bytesInUse = 24 := by
  have ready : Uncollected chores ⟨brimful, #[]⟩ := uncollected_of_peaceful (by decide +kernel)
  exact ⟨brimful_orderly, ready, charges_follow_lengths brimful_orderly ready, rfl, by decide +kernel⟩

end SeqCall

end ChunkHeap

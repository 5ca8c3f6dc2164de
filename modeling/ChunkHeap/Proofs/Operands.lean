import ChunkHeap.Proofs.Containers.Sequences

/-!
# Operands are kept

An operation that links objects into a container, or makes a new object of them,
may have to collect first. Its operands need no root for that: the chunk that is
asked for names them, or the operation pins or protects them meanwhile.

`Heap.Sustained` says what that comes to: whatever the operands led to is live
afterwards, whether the operation succeeds or not, and holds what it held unless
it is a part of the container (`Heap.PartOf`). For segmented lists it follows from
what their operations do to a chain, for any live operands, segments included. A
new table entry takes two allocations, and the key that went in with the first
stays within reach of the table until the second is over.

The exception is a slice: a bound that is a None object is taken for no bound, so
nothing keeps it.
-/

namespace ChunkHeap
set_option autoImplicit false

open HeapM

namespace Heap

variable {h g k : Heap} {x y s : Handle} {p : Payload} {c c' : Chain} {X starts pins : List Handle}
  {own wider : Handle → Prop}

/-- A segmented list and its segments. -/
def OfChain (h : Heap) (s y : Handle) : Prop :=
  y = s ∨ ∃ c, h.Carries s c ∧ y ∈ c.map Prod.fst

/-- A container, its storages and their segments. -/
def PartOf (h : Heap) (x y : Handle) : Prop :=
  h.OfChain x y ∨ ∃ p s, h.find? x = some p ∧ s ∈ p.storages ∧ h.OfChain s y

/-- From `h` to `g` whatever `X` led to stays live, and holds the same unless it is
one of `own`. -/
def Sustained (X : List Handle) (own : Handle → Prop) (h g : Heap) : Prop :=
  ∀ y p, h.arena.Reaches X y → h.find? y = some p → ∃ q, g.find? y = some q ∧ (own y ∨ q = p)

/-- Cursors do not matter to what belongs to what. -/
theorem Glanced.ofChain (glanced : Glanced h g) (sound : h.Sound none) (part : g.OfChain s y) : h.OfChain s y := by
  refine part.imp_right fun ⟨c, carries, member⟩ => ?_
  obtain ⟨r', found', -⟩ := id carries
  obtain ⟨p, found, still⟩ := glanced.alike_back found'
  cases p with
  | seglist r =>
    obtain ⟨d, chained⟩ := sound.chains s r found
    have carries' : h.Carries s d := ⟨r, found, chained⟩
    exact ⟨d, carries', (glanced.carries sound carries').unique carries ▸ member⟩
  | _ => cases still

theorem Glanced.partOf (glanced : Glanced h g) (sound : h.Sound none) (part : g.PartOf x y) : h.PartOf x y := by
  refine part.imp (fun own => glanced.ofChain sound own) ?_
  rintro ⟨q, s, found', stored, own⟩
  obtain ⟨p, found, still⟩ := glanced.alike_back found'
  have other : q.tag ≠ .seglist := by
    intro list
    cases q <;> cases list
    cases stored
  obtain rfl := Payload.eq_of_still still.symm other
  exact ⟨p, s, found, stored, glanced.ofChain sound own⟩

/-! ### What sustains -/

theorem Sustained.of_find? (same : ∀ y p, h.arena.Reaches X y → h.find? y = some p → g.find? y = some p) :
    Sustained X own h g :=
  fun y p reached found => ⟨p, same y p reached found, .inr rfl⟩

theorem Sustained.refl (h : Heap) : Sustained X own h h :=
  .of_find? fun _ _ _ found => found

theorem Sustained.nil : Sustained [] own h g := by
  intro y p reached
  exfalso
  induction reached with
  | start member => cases member
  | edge _ _ _ ih => exact ih

theorem Sustained.mono (sustained : Sustained X own h g) (subset : ∀ y, own y → wider y) : Sustained X wider h g := by
  intro y p reached found
  obtain ⟨q, live, same⟩ := sustained y p reached found
  exact ⟨q, live, same.imp_left (subset y)⟩

/-- One change after another, each object on its own in the second. -/
theorem Sustained.trans (first : Sustained X own h g) (second : ∀ y, h.arena.Reaches X y → Sustained [y] own g k) :
    Sustained X own h k := by
  intro y p reached found
  obtain ⟨q, live, same⟩ := first y p reached found
  obtain ⟨r, last, same'⟩ := second y reached y q (.start (List.mem_singleton_self y)) live
  refine ⟨r, last, ?_⟩
  rcases same, same' with ⟨inside | rfl, inside' | rfl⟩
  · exact .inl inside
  · exact .inl inside
  · exact .inl inside'
  · exact .inr rfl

theorem Sustained.edited (sustained : Sustained X own h g) (edited : Edited own g k) : Sustained X own h k := by
  refine sustained.trans fun y _ z p _ found => ?_
  by_cases inside : own z
  · cases after : k.find? z with
    | none =>
      rw [(edited.live z).1 after] at found
      cases found
    | some q => exact ⟨q, rfl, .inl inside⟩
  · exact ⟨p, (edited.outside z inside).trans found, .inr rfl⟩

/-- An access moves cursors within `own` first. -/
theorem Sustained.after_glance (glanced : Glanced h g) (edited : Edited own h g) (later : Sustained X own g k) :
    Sustained X own h k :=
  ((Sustained.refl h).edited edited).trans fun _ reached z q start live =>
    later z q (reaches_trans (fun _ member => List.mem_singleton.1 member ▸ glanced.reaches_iff.2 reached) start) live

/-- A collection that pins `X`, or has roots that lead to it. -/
theorem Swept.sustained (swept : Swept pins h g) (ok : h.Accounted)
    (pinned : ∀ x ∈ X, h.arena.Reaches (h.collectionRoots pins) x) : Sustained X own h g :=
  .of_find? fun _ _ reached found => (swept.find? ok (reaches_trans pinned reached)).trans found

/-- More contents take no fewer segments. -/
theorem Carries.length_le (carries : h.Carries s c) (carries' : g.Carries s c')
    (longer : (c.map Prod.snd).flatten.length ≤ (c'.map Prod.snd).flatten.length) : c.length ≤ c'.length := by
  obtain ⟨r, -, chained⟩ := carries
  obtain ⟨r', -, chained'⟩ := carries'
  rw [chained.length_chain, chained'.length_chain]
  exact Nat.div_le_div_right (Nat.add_le_add_right longer _)

/-- A chain that has become longer has kept its segments. -/
theorem Rechained.segments_kept (changed : Rechained s c h g c') (carries : h.Carries s c)
    (longer : (c.map Prod.snd).flatten.length ≤ (c'.map Prod.snd).flatten.length) : c.map Prod.fst <+: c'.map Prod.fst := by
  rcases changed.segments with grown | shrunk
  · exact grown
  · have count := carries.length_le changed.here longer
    have same := shrunk.eq_of_length_le (by simpa using count)
    exact same ▸ List.prefix_refl _

/-- A chain that keeps its segments keeps all objects. -/
theorem Rechained.sustained (changed : Rechained s c h g c') (kept : c.map Prod.fst ⊆ c'.map Prod.fst) :
    Sustained X (fun y => y = s ∨ y ∈ c.map Prod.fst) h g := by
  intro y p _ found
  by_cases same : y = s
  · obtain ⟨r, here, -⟩ := changed.here
    exact ⟨_, same ▸ here, .inl (.inl same)⟩
  · by_cases inside : y ∈ c.map Prod.fst
    · obtain ⟨r, segment⟩ := changed.here.linked.segment (kept inside)
      exact ⟨_, segment, .inl (.inr inside)⟩
    · exact ⟨p, (changed.untouched found same inside).2, .inr rfl⟩

/-- While a list that is within reach grows, whatever is within reach stays so. -/
theorem Rechained.reaches_on (changed : Rechained s c h g c') (carries : h.Carries s c)
    (kept : c.map Prod.fst ⊆ c'.map Prod.fst) (grows : (c.map Prod.snd).flatten ⊆ (c'.map Prod.snd).flatten)
    (here : g.arena.Reaches starts s) (reached : h.arena.Reaches starts y) : g.arena.Reaches starts y := by
  have parts := changed.here.reaches here
  induction reached with
  | start member => exact .start member
  | @edge z y o before live edge ih =>
    have found : h.find? z = some o.payload := find?_eq_some_iff.2 ⟨o, live, rfl⟩
    by_cases part : z = s ∨ z ∈ c.map Prod.fst
    · rcases carries.edge part found edge with segment | held
      · exact parts.1 y (kept segment)
      · exact parts.2 y (grows held)
    · obtain ⟨other, outside⟩ := not_or.1 part
      exact reaches_edge ih (changed.untouched found other outside).2 edge

theorem Swept.reaches (swept : Swept pins h g) (ok : h.Accounted)
    (pinned : ∀ x ∈ starts, h.arena.Reaches (h.collectionRoots pins) x) (reached : h.arena.Reaches starts y) :
    g.arena.Reaches starts y := by
  refine reaches_of_children (fun z p before found => ?_) reached
  exact ⟨p, (swept.find? ok (reaches_trans pinned before)).trans found, List.Subset.refl _⟩

/-- An operation that adds `x` to a list within reach. -/
theorem Grown.sustained {xs : List Handle} {result : Except Error Unit × Machine} (grown : Grown s x c xs h result)
    (ok : h.Accounted) (carries : h.Carries s c) (reached : h.arena.Reaches (h.collectionRoots [x]) s)
    (longer : (c.map Prod.snd).flatten.length ≤ xs.length)
    (pinned : ∀ z ∈ X, h.arena.Reaches (h.collectionRoots [x]) z) :
    Sustained X (fun y => y = s ∨ y ∈ c.map Prod.fst) h result.2.heap := by
  cases grown with
  | failed swept => exact swept.sustained ok pinned
  | grown swept changed items =>
    obtain ⟨r, found, chained⟩ := carries
    have carries := chained.swept found ok reached swept
    refine (swept.sustained ok pinned).trans fun y _ => changed.sustained (changed.segments_kept ⟨r, carries⟩ ?_).subset
    rw [items]
    exact longer

end Heap

open Heap

variable {m : Machine} {x y s : Handle} {X : List Handle} {own : Handle → Prop}

/-! ### Operations that write in place -/

namespace HeapM

variable {α β : Type}

/-- The operation at most replaces payloads of objects of `own`. -/
def Edits (own : Handle → Prop) (op : HeapM α) : Prop :=
  ∀ m, Edited own m.heap (op.run m).2.heap

theorem edits_pure (a : α) : Edits own (pure a : HeapM α) :=
  fun _ => Edited.refl _ _

theorem edits_throw (e : Error) : Edits own (throw e : HeapM α) :=
  fun _ => Edited.refl _ _

theorem edits_inspect (f : Heap → Except Error α) : Edits own (inspect f) :=
  fun _ => Edited.refl _ _

theorem Edits.mono {op : HeapM α} {wider : Handle → Prop} (edits : Edits own op) (subset : ∀ x, own x → wider x) :
    Edits wider op :=
  fun m => (edits m).mono subset

theorem Edits.bind {op : HeapM α} {f : α → HeapM β} (first : Edits own op) (second : ∀ a, Edits own (f a)) :
    Edits own (op >>= f) := by
  intro m
  have edited := first m
  rw [run_bind]
  rcases ran : op.run m with ⟨_ | a, m'⟩
  · rw [ran] at edited
    exact edited
  · rw [ran] at edited
    exact edited.trans (second a m')

theorem edits_rewrite {ρ : Type} {read : Heap → Except Error ρ} {write : ρ → Payload}
    (known : ∀ h r, read h = .ok r → ∃ p, h.find? x = some p ∧ (write r).tag = p.tag ∧ (write r).chunkBytes = p.chunkBytes) :
    Edits (· = x) (do
      let r ← inspect read
      modify fun h => h.setPayload x (write r)) := by
  intro m
  cases reading : read m.heap with
  | error e =>
    rw [run_bind, run_inspect, reading]
    exact Edited.refl _ _
  | ok r =>
    obtain ⟨p, found, tag, bytes⟩ := known m.heap r reading
    rw [run_bind, run_inspect, reading]
    exact edited_setPayload found tag bytes

end HeapM

theorem Heap.Sustained.bind {α β : Type} {op : HeapM α} {f : α → HeapM β}
    (first : Sustained X own m.heap (op.run m).2.heap) (next : ∀ a, Edits own (f a)) :
    Sustained X own m.heap ((op >>= f).run m).2.heap := by
  rw [run_bind]
  rcases ran : op.run m with ⟨_ | a, m'⟩
  · rw [ran] at first
    exact first
  · rw [ran] at first
    exact first.edited (next a m')

/-! ### Segmented lists -/

namespace SegList

theorem ofChain {h : Heap} {c : Chain} (carries : h.Carries s c) : ∀ y, y = s ∨ y ∈ c.map Prod.fst → h.OfChain s y :=
  fun _ part => part.imp_right fun member => ⟨c, carries, member⟩

theorem append_sustains (shaped : m.heap.Shaped) (rooted : m.heap.Rooted s) (x : Handle) :
    Sustained [x] (m.heap.OfChain s) m.heap ((append s x).run m).2.heap := by
  cases read : m.heap.segListRecord s with
  | error e =>
    rw [append, run_bind_error (by rw [run_inspect, read])]
    exact .refl _
  | ok r =>
    have found := segListRecord_eq_ok_iff.1 read
    obtain ⟨c, chained⟩ := shaped.chains s r found
    have grown := append_spec x found chained shaped.accounted (rooted.collected [x])
    refine (grown.sustained shaped.accounted ⟨r, found, chained⟩ (rooted.collected [x]) (by simp) ?_).mono
      (ofChain ⟨r, found, chained⟩)
    exact fun z member => .start (List.mem_append_right _ member)

theorem insert_sustains (shaped : m.heap.Shaped) (rooted : m.heap.Rooted s) (x : Handle) (i : Nat) :
    Sustained [x] (m.heap.OfChain s) m.heap ((insert s x i).run m).2.heap := by
  cases read : m.heap.segListRecord s with
  | error e =>
    have failed : m.heap.segListLength s = .error e := by
      rw [segListLength, read]
      rfl
    rw [insert, run_bind_error (by rw [run_inspect, failed])]
    exact .refl _
  | ok r =>
    have found := segListRecord_eq_ok_iff.1 read
    obtain ⟨c, chained⟩ := shaped.chains s r found
    by_cases outside : r.length < i
    · rw [run_insert_range x found outside]
      exact .refl _
    · have inside : i ≤ r.length := Nat.not_lt.1 outside
      have grown := insert_spec x found chained shaped.accounted (rooted.collected [x]) inside
      refine (grown.sustained shaped.accounted ⟨r, found, chained⟩ (rooted.collected [x]) ?_ ?_).mono
        (ofChain ⟨r, found, chained⟩)
      · rw [List.length_insertIdx]
        split <;> omega
      · exact fun z member => .start (List.mem_append_right _ member)

/-- Storing in place allocates nothing, so it loses nothing at all. -/
theorem set_sustains (shaped : m.heap.Shaped) (s : Handle) (i : Nat) (x : Handle) :
    Sustained X (m.heap.OfChain s) m.heap ((set s i x).run m).2.heap := by
  rcases locate_fails_or s i m with ⟨e, failed⟩ | ⟨r, found, inside⟩
  · rw [set, run_bind_error failed]
    exact .refl _
  · obtain ⟨c, chained⟩ := shaped.chains s r found
    obtain ⟨m', c', stored, changed, items⟩ := set_spec x found chained inside
    rw [stored]
    refine (changed.sustained (changed.segments_kept ⟨r, found, chained⟩ ?_).subset).mono (ofChain ⟨r, found, chained⟩)
    have same : (c'.map Prod.snd).flatten.length = (c.map Prod.snd).flatten.length := by rw [items, List.length_set]
    exact Nat.le_of_eq same.symm

theorem edits_get (s : Handle) (i : Nat) : Edits (· = s) (get s i) := by
  have located : Edits (· = s) (locate s i) := by
    intro m
    rcases locate_moves s i m with same | ⟨r, cursor, found, moved⟩
    · rw [same]
      exact Edited.refl _ _
    · rw [moved]
      exact edited_seglist _ found
  refine located.bind fun _ => (edits_inspect _).bind fun r => ?_
  split
  · exact edits_pure _
  · exact edits_throw _

end SegList

/-! ### Lists -/

namespace ListObject

theorem edits_modifyRecord (list : Handle) (f : ListRecord → ListRecord) : Edits (· = list) (modifyRecord list f) :=
  edits_rewrite fun _ _ read => ⟨_, listRecord_eq_ok_iff.1 read, rfl, rfl⟩

theorem partOf {h : Heap} {list : Handle} {r : ListRecord} (found : h.find? list = some (.list r)) :
    ∀ y, h.OfChain r.storage y → h.PartOf list y :=
  fun _ part => .inr ⟨_, r.storage, found, List.mem_singleton_self _, part⟩

/-- A change to the storage of a list, followed by one to its record. -/
theorem resize_sustained {list : Handle} {op : ListRecord → HeapM Unit} (f : ListRecord → ListRecord)
    (storage : ∀ r, m.heap.find? list = some (.list r) →
      Sustained X (m.heap.OfChain r.storage) m.heap ((op r).run m).2.heap) :
    Sustained X (m.heap.PartOf list) m.heap ((do
      let r ← inspect fun h => h.listRecord list
      op r
      modifyRecord list f).run m).2.heap := by
  cases read : m.heap.listRecord list with
  | error e =>
    rw [run_bind_error (by rw [run_inspect, read])]
    exact .refl _
  | ok r =>
    have found := listRecord_eq_ok_iff.1 read
    rw [run_bind_ok (run_inspect_ok read)]
    exact ((storage r found).mono (partOf found)).bind fun _ =>
      (edits_modifyRecord list f).mono fun y same => .inl (.inl same)

theorem append_sustains (shaped : m.heap.Shaped) {list : Handle} (rooted : m.heap.Rooted list) (x : Handle) :
    Sustained [x] (m.heap.PartOf list) m.heap ((append list x).run m).2.heap :=
  resize_sustained _ fun _ found =>
    SegList.append_sustains shaped (reaches_edge rooted found (List.mem_singleton_self _)) x

theorem insert_sustains (shaped : m.heap.Shaped) {list : Handle} (rooted : m.heap.Rooted list) (i : Int) (x : Handle) :
    Sustained [x] (m.heap.PartOf list) m.heap ((insert list i x).run m).2.heap :=
  resize_sustained _ fun _ found =>
    SegList.insert_sustains shaped (reaches_edge rooted found (List.mem_singleton_self _)) x _

theorem set_sustains (shaped : m.heap.Shaped) (list : Handle) (i : Int) (x : Handle) :
    Sustained X (m.heap.PartOf list) m.heap ((set list i x).run m).2.heap := by
  cases read : m.heap.listRecord list with
  | error e =>
    rw [set, run_bind_error (by rw [run_inspect, read])]
    exact .refl _
  | ok r =>
    rw [set, run_bind_ok (run_inspect_ok read), position]
    cases Position.element? i r.length with
    | none => exact .refl _
    | some n => exact (SegList.set_sustains shaped r.storage n x).mono (partOf (listRecord_eq_ok_iff.1 read))

end ListObject

/-! ### Tables -/

namespace DictObject

variable {dict key value : Handle} {r : DictRecord}

theorem edits_modifyRecord (dict : Handle) (f : DictRecord → DictRecord) : Edits (· = dict) (modifyRecord dict f) :=
  edits_rewrite fun _ _ read => ⟨_, dictRecord_eq_ok_iff.1 read, rfl, rfl⟩

theorem edits_findFrom (keys : Handle) (test : Heap → Handle → Except Error Bool) (count i : Nat) :
    Edits (· = keys) (findFrom keys test count i) := by
  induction count generalizing i with
  | zero => exact edits_pure _
  | succ count ih =>
    refine (SegList.edits_get keys i).bind fun _ => (edits_inspect _).bind fun passed => ?_
    split
    · exact edits_pure _
    · exact ih _

/-- Once a reference has been appended to a list that the roots lead to, the roots
lead to it, and still to all they led to. There may be more roots than those of the
sound heap, segments among them. -/
theorem rooted_of_grown {h g k : Heap} {c c' : Chain} {roots : RootSet} (sound : h.Sound none) (rooted : h.Rooted s)
    (carries : h.Carries s c) (outer : h.roots.toList ⊆ roots.toList) (swept : Swept [x] { h with roots := roots } g)
    (changed : Rechained s c g k c') (items : (c'.map Prod.snd).flatten = (c.map Prod.snd).flatten ++ [x])
    (reached : h.arena.Reaches ({ h with roots := roots }.collectionRoots [x]) y) : k.Rooted y := by
  have ok : { h with roots := roots }.Accounted := ⟨sound.accounted.arena, sound.accounted.bytes⟩
  have upkeep := (swept.upkeep ok).trans changed.toUpkeep
  have grows : (c.map Prod.snd).flatten ⊆ (c'.map Prod.snd).flatten := by
    rw [items]
    exact List.subset_append_left _ _
  have start : h.collectionRoots [] ⊆ { h with roots := roots }.collectionRoots [x] := by
    intro z member
    simp only [collectionRoots, List.mem_append, List.not_mem_nil, or_false] at member ⊢
    exact .inl (member.imp_left fun root => outer root)
  obtain ⟨r, found, chained⟩ := id carries
  have chained' : { h with roots := roots }.Chained r c := chained.congr fun _ _ => rfl
  have carries_g : g.Carries s c := ⟨r, chained'.swept found ok (reaches_mono start rooted) swept⟩
  have kept := changed.segments_kept carries_g (by rw [items]; simp)
  -- the list itself, on paths from the old roots
  have here : k.arena.Reaches (h.collectionRoots []) s := by
    have before : g.arena.Reaches (h.collectionRoots []) s := swept.reaches ok (fun z root => .start (start root)) rooted
    refine (changed.reaches carries_g ?_ ?_ grows before).1 fun member => chained.linked.ne_list found member rfl
    · intro z p live t edge member
      exact sound.enclosed carries z p (swept.of_find? ok live) t edge member
    · intro z root inside
      obtain ⟨t, segment⟩ := carries.linked.segment inside
      exact sound.unsegmented z root t segment
  have list : k.Rooted s := by
    refine reaches_mono ?_ here
    rw [upkeep.collectionRoots]
    intro z member
    simp only [collectionRoots, List.mem_append, List.not_mem_nil, or_false] at member ⊢
    exact member.imp_left fun root => outer root
  refine reaches_trans (fun z member => ?_) (changed.reaches_on carries_g kept.subset grows (reaches_mono start here)
    (swept.reaches ok (fun z member => .start member) reached))
  rcases List.mem_append.1 member with root | pin
  · refine .start ?_
    rw [upkeep.collectionRoots]
    exact List.mem_append_left _ root
  · rw [List.mem_singleton.1 pin]
    exact (changed.here.reaches list).2 x (by rw [items]; simp)

/-- Growth that is taken back releases none of the segments there were before it. -/
theorem live_of_undone {h g k k' : Heap} {c c₁ c₂ : Chain} {p q : Payload} (grown : Rechained s c h g c₁)
    (carries : h.Carries s c) (longer : (c.map Prod.snd).flatten.length ≤ (c₁.map Prod.snd).flatten.length)
    (undone : Rechained s c₁ k k' c₂) (same : (c.map Prod.snd).flatten.length ≤ (c₂.map Prod.snd).flatten.length)
    (before : h.find? y = some p) (after : k.find? y = some q) :
    ∃ q', k'.find? y = some q' ∧ ((y = s ∨ y ∈ c.map Prod.fst) ∨ q' = q) := by
  by_cases list : y = s
  · obtain ⟨r, here, -⟩ := undone.here
    exact ⟨_, list ▸ here, .inl (.inl list)⟩
  · by_cases inside : y ∈ c₁.map Prod.fst
    · have old : y ∈ c.map Prod.fst := by
        by_contra outside
        rw [grown.fresh y inside outside] at before
        cases before
      have count := carries.length_le undone.here same
      have kept : c.map Prod.fst <+: c₂.map Prod.fst := by
        have first := grown.segments_kept carries longer
        rcases undone.segments with up | down
        · exact first.trans up
        · exact List.prefix_of_prefix_length_le first down (by simpa using count)
      obtain ⟨r, segment⟩ := undone.here.linked.segment (kept.subset old)
      exact ⟨_, segment, .inl (.inr old)⟩
    · exact ⟨q, (undone.untouched after list inside).2, .inr rfl⟩

/-- The chains of a table: as long as the table, and apart. -/
theorem chains_of_table {h : Heap} (sound : h.Sound none) (found : h.find? dict = some (.dict r)) :
    ∃ ck cv, h.Carries r.keys ck ∧ h.Carries r.vals cv ∧ (ck.map Prod.snd).flatten.length = r.length ∧
      r.vals ≠ r.keys ∧ ∀ s ∈ cv.map Prod.fst, s ∉ ck.map Prod.fst := by
  obtain ⟨rk, found_k, length⟩ := sound.stores dict _ found r.keys (by simp [Payload.storages])
  obtain ⟨rv, found_v, -⟩ := sound.stores dict _ found r.vals (by simp [Payload.storages])
  obtain ⟨ck, chained_k⟩ := sound.chains r.keys rk found_k
  obtain ⟨cv, chained_v⟩ := sound.chains r.vals rv found_v
  have different : r.vals ≠ r.keys := by
    have separate := sound.separate dict _ found
    simp only [Payload.storages, List.nodup_cons, List.mem_singleton] at separate
    exact fun same => separate.1 same.symm
  have carries_k : h.Carries r.keys ck := ⟨rk, found_k, chained_k⟩
  have carries_v : h.Carries r.vals cv := ⟨rv, found_v, chained_v⟩
  refine ⟨ck, cv, carries_k, carries_v, ?_, different, sound.disjoint _ _ cv ck carries_v carries_k different⟩
  rw [← chained_k.length, length (by simp)]
  rfl

theorem partOf_keys {h : Heap} {c : Chain} (found : h.find? dict = some (.dict r)) (carries : h.Carries r.keys c) :
    ∀ y, y = r.keys ∨ y ∈ c.map Prod.fst → h.PartOf dict y :=
  fun y part => .inr ⟨_, r.keys, found, by simp [Payload.storages], SegList.ofChain carries y part⟩

theorem partOf_vals {h : Heap} {c : Chain} (found : h.find? dict = some (.dict r)) (carries : h.Carries r.vals c) :
    ∀ y, y = r.vals ∨ y ∈ c.map Prod.fst → h.PartOf dict y :=
  fun y part => .inr ⟨_, r.vals, found, by simp [Payload.storages], SegList.ofChain carries y part⟩

/-- The key of a new entry has gone in, between `g` and `k`. What was in `X` is
within reach of the roots now. -/
structure KeyIn (r : DictRecord) (key : Handle) (X : Handle → Prop) (ck cv c₁ : Chain) (g k : Heap) : Prop where
  carries : g.Carries r.keys ck
  changed : Rechained r.keys ck g k c₁
  items : (c₁.map Prod.snd).flatten = (ck.map Prod.snd).flatten ++ [key]
  accounted : k.Accounted
  rooted : ∀ z, X z → k.Rooted z
  keys : k.Rooted r.keys
  vals : k.Rooted r.vals
  carries_vals : k.Carries r.vals cv

/-- The value goes in too, or the key is taken back; all of `X` stays. -/
theorem KeyIn.sustains {X own : Handle → Prop} {ck cv c₁ : Chain} {g : Heap} (keyIn : KeyIn r key X ck cv c₁ g m.heap)
    (value : Handle)
    (length : (ck.map Prod.snd).flatten.length = r.length) (keys : ∀ y, y = r.keys ∨ y ∈ ck.map Prod.fst → own y)
    (vals : ∀ y, y = r.vals ∨ y ∈ cv.map Prod.fst → own y) {p q : Payload} (inside : X y) (before : g.find? y = some p)
    (after : m.heap.find? y = some q) :
    ∃ q', ((recover (SegList.append r.vals value) fun e => do
      SegList.remove r.keys r.length
      throw e).run m).2.heap.find? y = some q' ∧ (own y ∨ q' = q) := by
  obtain ⟨rv, found_v, chained_v⟩ := id keyIn.carries_vals
  have reached_v := keyIn.vals.collected [value]
  have second := SegList.append_spec value found_v chained_v keyIn.accounted reached_v
  have sustained : Sustained [y] own m.heap ((SegList.append r.vals value).run m).2.heap := by
    refine (second.sustained keyIn.accounted keyIn.carries_vals reached_v (by simp) fun z member => ?_).mono vals
    rw [List.mem_singleton.1 member]
    exact (keyIn.rooted y inside).collected [value]
  obtain ⟨q₂, live₂, same₂⟩ := sustained y q (.start (List.mem_singleton_self y)) after
  rw [run_recover]
  generalize (SegList.append r.vals value).run m = outcome at second live₂
  cases second with
  | grown => exact ⟨q₂, live₂, same₂⟩
  | @failed e m₂ swept₂ =>
    -- no room for the value: the key is taken back
    obtain ⟨rk, found_k, chained_k⟩ := id keyIn.changed.here
    obtain ⟨found₂, chained₂⟩ := chained_k.swept found_k keyIn.accounted (keyIn.keys.collected [value]) swept₂
    have last : r.length < rk.length := by
      rw [chained_k.length, keyIn.items, ← length]
      simp
    obtain ⟨m₃, c₂, removed, undone, left⟩ := SegList.remove_spec found₂ chained₂ last
    have back : (c₂.map Prod.snd).flatten = (ck.map Prod.snd).flatten := by
      rw [left, keyIn.items, ← length, List.eraseIdx_append_of_length_le (Nat.le_refl _)]
      simp
    obtain ⟨q', live, same⟩ := live_of_undone keyIn.changed keyIn.carries (by rw [keyIn.items]; simp) undone
      (Nat.le_of_eq (by rw [back])) before live₂
    show ∃ q', ((do SegList.remove r.keys r.length; throw e : HeapM Unit).run m₂).2.heap.find? y = some q' ∧ _
    rw [run_bind_ok removed]
    refine ⟨q', live, ?_⟩
    rcases same with part | rfl
    · exact .inl (keys y part)
    · exact same₂

/-- A new entry keeps its key and its value, also when it is taken back. The value
is protected, the table is within reach of the other roots. -/
theorem appendEntry_sustains {h : Heap} {roots : RootSet} {log : Array Event} (sound : h.Sound none)
    (rooted : h.Rooted dict) (found : h.find? dict = some (.dict r)) (outer : h.roots.toList ⊆ roots.toList)
    (held : value ∈ roots.toList) :
    Sustained [key, value] (h.PartOf dict) h
      ((appendEntry r key value).run { heap := { h with roots := roots }, log := log }).2.heap := by
  obtain ⟨ck, cv, carries_k, carries_v, length, different, apart⟩ := chains_of_table sound found
  obtain ⟨rk, found_k, chained_k⟩ := id carries_k
  obtain ⟨rv, found_v, chained_v⟩ := id carries_v
  have rooted_k : h.Rooted r.keys := reaches_edge rooted found (by simp [Payload.children])
  have rooted_v : h.Rooted r.vals := reaches_edge rooted found (by simp [Payload.children])
  have ok : { h with roots := roots }.Accounted := ⟨sound.accounted.arena, sound.accounted.bytes⟩
  have wider : ∀ {z}, h.Rooted z → h.arena.Reaches ({ h with roots := roots }.collectionRoots [key]) z :=
    fun rooted => (rooted.rerooted outer).collected [key]
  have pinned : ∀ z ∈ [key, value], h.arena.Reaches ({ h with roots := roots }.collectionRoots [key]) z := by
    intro z member
    rcases List.mem_pair.1 member with rfl | rfl
    · exact .start (List.mem_append_right _ (List.mem_singleton_self _))
    · exact .start (List.mem_append_left _ (List.mem_append_left _ held))
  have chained_k' : { h with roots := roots }.Chained rk ck := chained_k.congr fun _ _ => rfl
  have chained_v' : { h with roots := roots }.Chained rv cv := chained_v.congr fun _ _ => rfl
  -- the value is among the roots during the first append, and the key in the list during the second
  have first := SegList.append_spec (m := { heap := { h with roots := roots }, log := log }) key found_k chained_k' ok
    (wider rooted_k)
  have sustained := (first.sustained ok ⟨rk, found_k, chained_k'⟩ (wider rooted_k) (by simp) pinned).mono
    (partOf_keys found carries_k)
  generalize ran : (SegList.append r.keys key).run { heap := { h with roots := roots }, log := log } = outcome at first sustained
  cases first with
  | failed swept =>
    rw [appendEntry, run_bind_error ran]
    exact sustained
  | @grown g m₁ c₁ swept changed items =>
    have carries_g : g.Carries r.keys ck := ⟨rk, chained_k'.swept found_k ok (wider rooted_k) swept⟩
    have carries_vg : g.Carries r.vals cv := ⟨rv, chained_v'.swept found_v ok (wider rooted_v) swept⟩
    have rooted₁ : ∀ z, h.arena.Reaches ({ h with roots := roots }.collectionRoots [key]) z → m₁.heap.Rooted z :=
      fun z reached => rooted_of_grown sound rooted_k carries_k outer swept changed items reached
    have keyIn : KeyIn r key (h.arena.Reaches ({ h with roots := roots }.collectionRoots [key])) ck cv c₁ g m₁.heap :=
      { carries := carries_g
        changed := changed
        items := items
        accounted := changed.accounted ((swept.upkeep ok).accounted ok)
        rooted := rooted₁
        keys := rooted₁ _ (wider rooted_k)
        vals := rooted₁ _ (wider rooted_v)
        carries_vals := changed.carries_apart carries_g different carries_vg apart }
    rw [appendEntry, run_bind_ok ran]
    intro y p reached live
    have inside := reaches_trans pinned reached
    obtain ⟨q, live₁, same₁⟩ := sustained y p reached live
    obtain ⟨q', live', same'⟩ := keyIn.sustains value length (partOf_keys found carries_k)
      (partOf_vals found carries_v) inside ((swept.find? ok inside).trans live) live₁
    refine ⟨q', live', ?_⟩
    rcases same' with part | rfl
    · exact .inl part
    · exact same₁

/-- Storing under a key keeps the key and the value, whatever comes of it. -/
theorem set_sustains (sound : m.heap.Sound none) (rooted : m.heap.Rooted dict) (key value : Handle) :
    Sustained [key, value] (m.heap.PartOf dict) m.heap ((set dict key value).run m).2.heap := by
  cases read : m.heap.dictRecord dict with
  | error e =>
    rw [set, run_bind_error (by rw [run_inspect, read])]
    exact .refl _
  | ok r =>
    have found := dictRecord_eq_ok_iff.1 read
    obtain ⟨glanced, -⟩ := reads_findKey r key m none sound trivial
    have edited : Edited (m.heap.PartOf dict) m.heap ((findKey r key).run m).2.heap := by
      refine (edits_findFrom r.keys _ r.length 0 m).mono fun y same => ?_
      exact .inr ⟨_, r.keys, found, by simp [Payload.storages], .inl same⟩
    rw [set, run_bind_ok (run_inspect_ok read), run_bind]
    rcases ran : (findKey r key).run m with ⟨e | position, m₁⟩
    · rw [ran] at edited
      exact (Sustained.refl _).edited edited
    · rw [ran] at edited glanced
      have sound₁ := glanced.sound none sound
      have found₁ := glanced.find? found (by simp [Payload.tag])
      refine Sustained.after_glance glanced edited (Sustained.mono ?_ fun y => glanced.partOf sound (x := dict))
      cases position with
      | some i =>
        refine (SegList.set_sustains sound₁.toShaped r.vals i value).mono fun y part => ?_
        exact .inr ⟨_, r.vals, found₁, by simp [Payload.storages], part⟩
      | none =>
        have outer : m₁.heap.roots.toList ⊆ (m₁.heap.roots.enter.protect value).toList := by
          intro z member
          simp only [RootSet.toList, RootSet.enter, RootSet.protect, List.mem_append] at member ⊢
          tauto
        have stored : Sustained [key, value] (m₁.heap.PartOf dict) m₁.heap
            ((guarded do
              protect value
              appendEntry r key value
              modifyRecord dict fun r => { r with length := r.length + 1 } : HeapM Unit).run m₁).2.heap := by
          have kept : (protect value).run (m₁.mapRoots RootSet.enter) =
              (.ok (), (m₁.mapRoots RootSet.enter).mapRoots fun roots => roots.protect value) := rfl
          rw [run_guarded, run_bind_ok kept]
          refine Sustained.bind (m := (m₁.mapRoots RootSet.enter).mapRoots fun roots => roots.protect value)
            (appendEntry_sustains sound₁ (glanced.rooted_iff.2 rooted) found₁ outer (by simp [RootSet.toList, RootSet.protect]))
            fun _ => (edits_modifyRecord dict _).mono fun y same => .inl (.inl same)
        exact stored

end DictObject

/-! ### New objects -/

/-- A live object with live edges only, among them all of `parts`. -/
def Heap.Complete (h : Heap) (parts : List Handle) (x : Handle) : Prop :=
  ∃ p, h.find? x = some p ∧ parts ⊆ p.children ∧ ∀ y ∈ p.children, h.isLive y = true

/-- An allocation keeps what it pins and what the new object leads to. -/
theorem HeapM.allocatePinned_keeps (p : Payload) (pins : List Handle) (ok : m.heap.Accounted) :
    ((allocatePinned p pins).run m).2.heap.Accounted ∧
      (∀ y q, m.heap.arena.Reaches (pins ++ p.children) y → m.heap.find? y = some q →
        ((allocatePinned p pins).run m).2.heap.find? y = some q) ∧
      ∀ x, ((allocatePinned p pins).run m).1 = .ok x → ((allocatePinned p pins).run m).2.heap.find? x = some p := by
  obtain ⟨g, swept, outcome⟩ := allocatePinned_spec (m := m) p pins ok
  have kept : ∀ y q, m.heap.arena.Reaches (pins ++ p.children) y → m.heap.find? y = some q → g.find? y = some q :=
    fun y q reached found => (swept.find? ok (reaches_mono (List.subset_append_right _ _) reached)).trans found
  have ok_g := (swept.upkeep ok).accounted ok
  rcases outcome with ⟨e, m', failed, -, rfl, -⟩ | ⟨x, m', made, entered⟩
  · rw [failed]
    exact ⟨ok_g, kept, fun _ same => by cases same⟩
  · rw [made]
    refine ⟨entered.accounted ok_g, fun y q reached found => (entered.live (kept y q reached found)).2, fun z same => ?_⟩
    cases same
    exact entered.here

namespace Creation

/-- Whether an object is made in one go, of its operands and of parts made for it. -/
def direct : Creation → Bool
  | listReplicate _ _ | listCopy _ | listSlice _ _ _ _ | listSliceBy _ _ => false
  | _ => true

/-- The operands that a new object refers to. A None object for a bound of a slice
stands for no bound. -/
def parts (h : Heap) : Creation → List Handle
  | slice start stop step =>
    (start.toList ++ stop.toList ++ step.toList).filter fun x => (h.find? x).map Payload.tag ≠ some .none
  | c => c.operands

theorem parts_subset (c : Creation) (h : Heap) : c.parts h ⊆ c.operands := by
  cases c with
  | slice => exact fun _ member => (List.mem_filter.1 member).1
  | _ => exact List.Subset.refl _

/-- What making an object comes to. -/
def Makes (parts : List Handle) (op : HeapM Handle) (m : Machine) : Prop :=
  Sustained parts (fun _ => False) m.heap (op.run m).2.heap ∧
    ∀ x, (op.run m).1 = .ok x → (op.run m).2.heap.Complete parts x

variable {parts : List Handle}

theorem makes_allocate (p : Payload) (ok : m.heap.Accounted) (subset : parts ⊆ p.children)
    (live : ∀ y ∈ p.children, ∃ q, m.heap.find? y = some q) : Makes parts (allocate p) m := by
  obtain ⟨-, kept, made⟩ := allocatePinned_keeps (m := m) p [] ok
  refine ⟨.of_find? fun y q reached found => kept y q (reaches_mono subset reached) found, fun x same => ?_⟩
  refine ⟨p, made x same, subset, fun y member => ?_⟩
  obtain ⟨q, found⟩ := live y member
  exact isLive_iff_find?.2 ⟨q, kept y q (.start member) found⟩

theorem makes_throw {op : HeapM Handle} {e : Error} (failed : op.run m = (.error e, m)) : Makes parts op m := by
  rw [Makes, failed]
  exact ⟨.refl _, fun _ same => by cases same⟩

/-- A check comes first. -/
theorem makes_inspect {α : Type} {f : Heap → Except Error α} {op : α → HeapM Handle}
    (next : ∀ a, f m.heap = .ok a → Makes parts (op a) m) : Makes parts (inspect f >>= op) m := by
  cases read : f m.heap with
  | error e => exact makes_throw (by rw [run_bind, run_inspect, read])
  | ok a =>
    have made := next a read
    rw [Makes, run_bind_ok (run_inspect_ok read)]
    exact made

/-- A part is made first, which keeps the parts that are pinned. -/
theorem makes_after (p : Payload) (pins : List Handle) (ok : m.heap.Accounted) {f : Handle → HeapM Handle}
    (next : ∀ x m', m'.heap.Accounted → m'.heap.find? x = some p →
      (∀ y ∈ pins, ∀ q, m.heap.find? y = some q → m'.heap.find? y = some q) → Makes [] (f x) m') :
    Makes [] (allocatePinned p pins >>= f) m := by
  obtain ⟨ok', kept, made⟩ := allocatePinned_keeps (m := m) p pins ok
  have pinned : ∀ y ∈ pins, ∀ q, m.heap.find? y = some q → ((allocatePinned p pins).run m).2.heap.find? y = some q :=
    fun y member q found => kept y q (.start (List.mem_append_left _ member)) found
  refine ⟨.nil, fun y same => ?_⟩
  rw [run_bind] at same ⊢
  rcases ran : (allocatePinned p pins).run m with ⟨e | x, m'⟩
  · rw [ran] at same
    cases same
  · rw [ran] at same ok' made pinned
    exact (next x m' ok' (made x rfl) pinned).2 y same

/-- A bound of a slice is one of its parts. -/
theorem sliceBound_part {h : Heap} {bound result : Option Handle} (headed : h.Headed) (read : h.sliceBound bound = .ok result)
    (member : x ∈ bound) (some_ : (h.find? x).map Payload.tag ≠ some .none) : x ∈ result := by
  obtain rfl := Option.mem_def.1 member
  rw [sliceBound, headed.tagOf_eq, payload_eq] at read
  cases found : h.find? x with
  | none =>
    rw [found] at read
    cases read
  | some p =>
    rw [found] at read some_
    have other : p.tag ≠ .none := fun same => some_ (congrArg some same)
    simp only [Except.map, bind, Except.bind] at read
    split at read
    · exact absurd (by assumption) other
    · cases read
      rfl
    · cases read

/-- What is made in one go keeps its parts and is complete. -/
theorem makes (c : Creation) (direct : c.direct = true) (sound : m.heap.Sound none)
    (live : ∀ x ∈ c.operands, ∃ p, m.heap.find? x = some p) : Makes (c.parts m.heap) c.run m := by
  have ok := sound.accounted
  cases c with
  | listReplicate | listCopy | listSlice | listSliceBy => cases direct
  | segList => exact makes_allocate _ ok (List.nil_subset _) fun y member => by cases member
  | list =>
    refine makes_after (.seglist {}) [] ok fun s m₁ ok₁ found _ => makes_allocate _ ok₁ (List.nil_subset _) fun y member => ?_
    rw [List.mem_singleton.1 member]
    exact ⟨_, found⟩
  | dict =>
    refine makes_after (.seglist {}) [] ok fun keys m₁ ok₁ found_k _ => ?_
    refine makes_after (.seglist {}) [keys] ok₁ fun vals m₂ ok₂ found_v kept => ?_
    refine makes_allocate _ ok₂ (List.nil_subset _) fun y member => ?_
    rcases List.mem_pair.1 member with rfl | rfl
    · exact ⟨_, kept y (List.mem_singleton_self y) _ found_k⟩
    · exact ⟨_, found_v⟩
  | tuple items => exact makes_allocate (.tuple items) ok (List.Subset.refl _) live
  | str text => exact makes_allocate _ ok (List.nil_subset _) fun y member => by cases member
  | int value =>
    have constants : ∀ x, m.heap.intConstant? value = some x → x ∈ m.heap.collectionRoots [] := by
      intro x constant
      refine List.mem_append_left _ (List.mem_append_right _ ?_)
      unfold intConstant? at constant
      split_ifs at constant <;> cases constant <;> simp [Constants.toList]
    show Makes [] (IntObject.new value) m
    rw [Makes, IntObject.new, run_bind_ok (run_heap m)]
    cases constant : m.heap.intConstant? value with
    | none => exact makes_allocate _ ok (List.nil_subset _) fun y member => by cases member
    | some x =>
      refine ⟨.nil, fun y same => ?_⟩
      cases same
      obtain ⟨p, found, -⟩ := sound.roots x (constants x constant)
      exact ⟨p, found, List.nil_subset _, fun y member => isLive_iff_find?.2 (sound.edges found member)⟩
  | slice start stop step =>
    refine makes_inspect fun r read => makes_allocate (.slice r) ok (fun y member => ?_) ?_
    · obtain ⟨first, second, third⟩ := sliceOf_bounds read
      obtain ⟨bound, some_⟩ := List.mem_filter.1 member
      have part : ∀ {bound result : Option Handle}, m.heap.sliceBound bound = .ok result → y ∈ bound.toList → y ∈ result.toList :=
        fun read inside => Option.mem_toList.2
          (sliceBound_part sound.headed read (Option.mem_toList.1 inside) (of_decide_eq_true some_))
      simp only [Payload.children, List.mem_append] at bound ⊢
      exact bound.imp (Or.imp (part first) (part second)) (part third)
    · exact fun y member => live y (sliceOf_refs read member)
  | function name body =>
    exact makes_inspect fun _ _ => makes_allocate (.function ⟨name, body⟩) ok (List.Subset.refl _) live
  | cls name attrs bases =>
    refine makes_inspect fun _ _ => makes_inspect fun _ _ => makes_inspect fun _ _ => ?_
    exact makes_allocate (.cls ⟨name, attrs, bases⟩) ok (List.Subset.refl _) live
  | method func receiver => exact makes_allocate (.method ⟨func, receiver⟩) ok (List.Subset.refl _) live

end Creation

/-! ### Any call -/

namespace Update

/-- The container that a change is made to. -/
def container : Update → Handle
  | segListAppend x _ | segListInsert x _ _ | segListSet x _ _ | segListRemove x _ | segListClear x | listAppend x _
  | listInsert x _ _ | listSet x _ _ | listRemoveAt x _ | listRemove x _ | listClear x | listStoreSlice x _ _ _
  | dictSet x _ _ | dictErase x _ | dictClear x | setAttribute x _ _ => x

/-- The operands that a change links into its container itself. -/
def linked : Update → List Handle
  | segListAppend _ x | segListInsert _ x _ | segListSet _ _ x | listAppend _ x | listInsert _ _ x | listSet _ _ x => [x]
  | dictSet _ key value => [key, value]
  | _ => []

theorem sustains (u : Update) (sound : m.heap.Sound none) (rooted : m.heap.Rooted u.container) :
    Sustained u.linked (m.heap.PartOf u.container) m.heap (u.run.run m).2.heap := by
  have shaped := sound.toShaped
  cases u with
  | segListAppend s x => exact (SegList.append_sustains shaped rooted x).mono fun y part => .inl part
  | segListInsert s x i => exact (SegList.insert_sustains shaped rooted x i).mono fun y part => .inl part
  | segListSet s i x => exact (SegList.set_sustains shaped s i x).mono fun y part => .inl part
  | listAppend list x => exact ListObject.append_sustains shaped rooted x
  | listInsert list i x => exact ListObject.insert_sustains shaped rooted i x
  | listSet list i x => exact ListObject.set_sustains shaped list i x
  | dictSet dict key value => exact DictObject.set_sustains sound rooted key value
  | _ => exact .nil

end Update

/-- **Operands are kept.** In a sound heap, whatever the operands that a change links
into a container lead to is live afterwards, whatever comes of the change, and holds
what it held unless it is a part of the container; the roots lead to the container,
but need not lead to the operands. And an object made in one go keeps whatever its
parts lead to, whether there is room for it or not; once made, it is live with all
its edges, its parts among them. -/
theorem Heap.Sound.operands_kept (sound : m.heap.Sound none) :
    (∀ u : Update, m.heap.Rooted u.container → (∀ x ∈ u.linked, m.heap.isLive x = true) →
      ∀ y, m.heap.arena.Reaches u.linked y →
        ∃ p q, m.heap.find? y = some p ∧ (u.run.run m).2.heap.find? y = some q ∧ (m.heap.PartOf u.container y ∨ q = p)) ∧
    ∀ c : Creation, c.direct = true → (∀ x ∈ c.operands, m.heap.isLive x = true) →
      (∀ y, m.heap.arena.Reaches (c.parts m.heap) y →
        ∃ p, m.heap.find? y = some p ∧ (c.run.run m).2.heap.find? y = some p) ∧
      ∀ x, (c.run.run m).1 = .ok x → (c.run.run m).2.heap.Complete (c.parts m.heap) x := by
  refine ⟨fun u rooted live y reached => ?_, fun c direct live => ?_⟩
  · obtain ⟨p, found⟩ := sound.live_of_reaches (fun x member => isLive_iff_find?.1 (live x member)) reached
    obtain ⟨q, after, same⟩ := u.sustains sound rooted y p reached found
    exact ⟨p, q, found, after, same⟩
  · have operands : ∀ x ∈ c.operands, ∃ p, m.heap.find? x = some p := fun x member => isLive_iff_find?.1 (live x member)
    obtain ⟨sustained, complete⟩ := c.makes direct sound operands
    refine ⟨fun y reached => ?_, complete⟩
    obtain ⟨p, found⟩ := sound.live_of_reaches (fun x member => operands x (c.parts_subset m.heap member)) reached
    obtain ⟨q, after, same⟩ := sustained y p reached found
    exact ⟨p, found, after.trans (congrArg some (same.resolve_left id))⟩

/-! ### Operands without a root -/

/-- Room for a table and the segment of its keys, but not for that of its values. -/
def scanty : HeapConfig := { arenaBytes := 96, maxChunkBytes := 64 }

/-- Make a table, a tuple that no root leads to, and garbage. -/
def lading : List Call :=
  [.create .dict, .pushRoot ⟨6⟩, .create (.int 7), .pushRoot ⟨7⟩, .create (.tuple [⟨7⟩]), .popRoot, .create (.int 8)]

abbrev laden : Machine :=
  Client.ended scanty lading

theorem laden_sound : laden.heap.Sound none := by
  apply Heap.Regular.sound
  apply Client.regular_ended
  decide +kernel

/-- The entry is taken back, and its key is there still with all that it holds. -/
theorem operands_kept_laden :
    laden.heap.Sound none ∧ laden.heap.isLive ⟨9⟩ = true ∧
      ((Update.dictSet ⟨6⟩ ⟨8⟩ ⟨8⟩).run.run laden).1 = .error .exhausted ∧
      ((Update.dictSet ⟨6⟩ ⟨8⟩ ⟨8⟩).run.run laden).2.heap.isLive ⟨9⟩ = false ∧
      (∃ p q, laden.heap.find? ⟨7⟩ = some p ∧ ((Update.dictSet ⟨6⟩ ⟨8⟩ ⟨8⟩).run.run laden).2.heap.find? ⟨7⟩ = some q ∧
        (laden.heap.PartOf ⟨6⟩ ⟨7⟩ ∨ q = p)) ∧
      ((Creation.tuple [⟨8⟩]).run.run laden).2.heap.Complete [⟨8⟩] ⟨10⟩ := by
  have reached : laden.heap.arena.Reaches [⟨8⟩, ⟨8⟩] ⟨7⟩ :=
    reaches_edge (.start (List.mem_cons_self)) (p := .tuple [⟨7⟩]) (by decide +kernel) (by decide)
  obtain ⟨updates, creations⟩ := laden_sound.operands_kept
  refine ⟨laden_sound, by decide +kernel, by decide +kernel, by decide +kernel, ?_, ?_⟩
  · exact updates (.dictSet ⟨6⟩ ⟨8⟩ ⟨8⟩) (.start (by decide +kernel)) (by decide +kernel) ⟨7⟩ reached
  · exact (creations (.tuple [⟨8⟩]) rfl (by decide +kernel)).2 ⟨10⟩ (by decide +kernel)

/-- Two None objects besides the constant, and no room for anything else. -/
abbrev cluttered : Machine :=
  ((allocate .none).run ((allocate .none).run (Machine.create { arenaBytes := 48, maxChunkBytes := 48 }).2).2).2

/-- A bound of a slice that is a None object is not kept: to make room for the slice,
the object is freed. -/
theorem slice_forgets_none_bound :
    cluttered.heap.Sound none ∧ cluttered.heap.find? ⟨4⟩ = some .none ∧
      ((Creation.slice (some ⟨4⟩) none none).run.run cluttered).1 = .ok ⟨5⟩ ∧
      ((Creation.slice (some ⟨4⟩) none none).run.run cluttered).2.heap.isLive ⟨4⟩ = false := by
  refine ⟨?_, by decide +kernel, by decide +kernel, by decide +kernel⟩
  have made : Machine.create { arenaBytes := 48, maxChunkBytes := 48 } =
      (.ok (), (Machine.create { arenaBytes := 48, maxChunkBytes := 48 }).2) := by rfl
  have another : ∀ m : Machine, m.heap.Sound none → ((allocate .none).run m).2.heap.Sound none := by
    intro m sound
    have keeps : Keeps false (fun _ => False) _ (allocate .none) _ :=
      keeps_allocate (fun _ => False) .none (by decide) (by decide) rfl rfl
    exact (keeps m sound ⟨by simp [Payload.refs, Payload.children], fun y none => False.elim none⟩).1.sound
  exact another _ (another _ (Machine.create_sound made).1)

end ChunkHeap

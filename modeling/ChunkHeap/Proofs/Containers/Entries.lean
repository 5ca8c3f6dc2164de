import ChunkHeap.Proofs.Containers.Sequences

/-!
# Tables are association lists

`TableCall.onEntries` says what the operations on tables do to a list of entries in
the order of insertion, where a key is looked for from the front. In a heap in order,
every table that the roots lead to, whose keys differ from each other, behaves like the
list of its entries (`TableCall.calls_follow_entries`), through any number of calls on
it and on other tables. The keys go on to differ. Of a call that fails nothing remains,
also when the key found room and the value did not. A value is replaced without an
allocation, and is found again under every key that is the same: comparing is a
congruence, and a change of a table does not show in comparisons.
-/

namespace ChunkHeap
set_option autoImplicit false

open HeapM

section Pairs

variable {α β : Type}

theorem map_fst_modify (l : List (α × β)) (i : Nat) (b : β) :
    (l.modify i fun e => (e.1, b)).map Prod.fst = l.map Prod.fst := by
  induction l generalizing i with
  | nil => simp
  | cons e l ih => cases i <;> simp [ih]

theorem map_snd_modify (l : List (α × β)) (i : Nat) (b : β) :
    (l.modify i fun e => (e.1, b)).map Prod.snd = (l.map Prod.snd).set i b := by
  induction l generalizing i with
  | nil => simp
  | cons e l ih => cases i <;> simp [ih]

end Pairs

namespace Heap

variable {h g : Heap} {d ks vs x : Handle} {E F : List (Handle × Handle)} {r : DictRecord} {S : Handle → Prop}
  {loose : Option Handle}

/-- The table `d` keeps the entries `E`, their keys in the storage `ks` and their
values in `vs`. -/
structure HasEntries (h : Heap) (d ks vs : Handle) (E : List (Handle × Handle)) : Prop where
  record : h.content? d = some (.record (.dict ⟨E.length, ks, vs⟩))
  keys : h.content? ks = some (.items (E.map Prod.fst))
  vals : h.content? vs = some (.items (E.map Prod.snd))

namespace HasEntries

theorem find? (has : h.HasEntries d ks vs E) : h.find? d = some (.dict ⟨E.length, ks, vs⟩) :=
  (find?_of_record has.record).1

theorem element (has : h.HasEntries d ks vs E) : h.Element d :=
  ⟨_, has.find?, by simp [Payload.tag]⟩

theorem ne_keys (has : h.HasEntries d ks vs E) : d ≠ ks := by
  rintro rfl
  have record := has.record
  rw [has.keys] at record
  cases record

theorem ne_vals (has : h.HasEntries d ks vs E) : d ≠ vs := by
  rintro rfl
  have record := has.record
  rw [has.vals] at record
  cases record

theorem separate (has : h.HasEntries d ks vs E) (sound : h.Sound loose) : ks ≠ vs := by
  simpa [Payload.storages] using sound.separate d _ has.find?

theorem anchored_keys (has : h.HasEntries d ks vs E) (shaped : h.Shaped) (rooted : h.Rooted d) : h.Anchored ks :=
  ⟨reaches_edge rooted has.find? (by simp [Payload.children]), shaped.element_iff.2 ⟨_, has.keys⟩⟩

theorem anchored_vals (has : h.HasEntries d ks vs E) (shaped : h.Shaped) (rooted : h.Rooted d) : h.Anchored vs :=
  ⟨reaches_edge rooted has.find? (by simp [Payload.children]), shaped.element_iff.2 ⟨_, has.vals⟩⟩

theorem glanced (has : h.HasEntries d ks vs E) (glanced : Glanced h g) (sound : h.Sound none) : g.HasEntries d ks vs E :=
  ⟨(glanced.content? sound d).trans has.record, (glanced.content? sound ks).trans has.keys,
    (glanced.content? sound vs).trans has.vals⟩

/-- A table lasts if neither it nor its storages are changed. -/
theorem altered (has : h.HasEntries d ks vs E) (altered : Altered S h g) (sound : h.Sound none) (rooted : h.Rooted d)
    (table : ¬ S d) (keys : ¬ S ks) (vals : ¬ S vs) : g.HasEntries d ks vs E :=
  ⟨(altered.kept d table rooted).trans has.record,
    (altered.kept ks keys (has.anchored_keys sound.toShaped rooted).1).trans has.keys,
    (altered.kept vs vals (has.anchored_vals sound.toShaped rooted).1).trans has.vals⟩

theorem rerooted (has : h.HasEntries d ks vs E) (shaped : h.Shaped) (roots : RootSet) :
    { h with roots := roots }.HasEntries d ks vs E :=
  ⟨(shaped.content?_rerooted roots d).trans has.record, (shaped.content?_rerooted roots ks).trans has.keys,
    (shaped.content?_rerooted roots vs).trans has.vals⟩

end HasEntries

theorem Sound.hasEntries (sound : h.Sound none) (found : h.find? d = some (.dict r)) :
    ∃ E, h.HasEntries d r.keys r.vals E := by
  obtain ⟨xs, keys, count⟩ := sound.stored_items found (s := r.keys) (by simp [Payload.storages])
  obtain ⟨ys, vals, count'⟩ := sound.stored_items found (s := r.vals) (by simp [Payload.storages])
  have length : (xs.zip ys).length = r.length := by
    rw [List.length_zip, count, count', Nat.min_self]
    rfl
  refine ⟨xs.zip ys, content?_of_record (found.trans ?_) (by simp [Payload.tag]) (by simp [Payload.tag]), ?_, ?_⟩
  · rw [length]
  · rw [keys, List.map_fst_zip (by omega)]
  · rw [vals, List.map_snd_zip (by omega)]

/-- The length on record of a segmented list that can be read. -/
theorem segListLength_of_segListItems {xs : List Handle} (read : h.segListItems x = .ok xs) : h.segListLength x = .ok xs.length := by
  obtain ⟨r, record, read⟩ := except_bind_ok read
  obtain ⟨items, -, read⟩ := except_bind_ok read
  split at read
  case isTrue counted =>
    cases read
    rw [segListLength, record, counted]
    rfl
  case isFalse => cases read

/-- What can be read of the table `d` are the entries `E`: its length, the keys and
the values in their storages, and the lengths of these. Any two keys differ. -/
structure Tabulates (h : Heap) (d : Handle) (E : List (Handle × Handle)) : Prop where
  length : h.dictLength d = .ok E.length
  storages : ∃ r, h.dictRecord d = .ok r ∧
    (h.segListItems r.keys = .ok (E.map Prod.fst) ∧ h.segListLength r.keys = .ok E.length) ∧
    (h.segListItems r.vals = .ok (E.map Prod.snd) ∧ h.segListLength r.vals = .ok E.length)
  distinct : E.Pairwise fun e f => h.compare e.1 f.1 = .ok .differ

theorem Tabulates.hasEntries (tabulates : h.Tabulates d E) : ∃ ks vs, h.HasEntries d ks vs E := by
  obtain ⟨⟨length, ks, vs⟩, record, ⟨keys, -⟩, vals, -⟩ := tabulates.storages
  have counted := tabulates.length
  rw [dictLength, record] at counted
  cases counted
  refine ⟨ks, vs, ?_, content?_of_segListItems keys, content?_of_segListItems vals⟩
  exact content?_of_record (dictRecord_eq_ok_iff.1 record) (by simp [Payload.tag]) (by simp [Payload.tag])

theorem HasEntries.tabulates (has : h.HasEntries d ks vs E) (distinct : E.Pairwise fun e f => h.compare e.1 f.1 = .ok .differ) :
    h.Tabulates d E := by
  have record : h.dictRecord d = .ok ⟨E.length, ks, vs⟩ := dictRecord_eq_ok_iff.2 has.find?
  have keys := (segListItems_of_items has.keys).2
  have vals := (segListItems_of_items has.vals).2
  have keys_length := segListLength_of_segListItems keys
  have vals_length := segListLength_of_segListItems vals
  rw [List.length_map] at keys_length vals_length
  exact ⟨by rw [dictLength, record]; rfl, ⟨_, record, ⟨keys, keys_length⟩, vals, vals_length⟩, distinct⟩

/-- The value that the first entry with a key gives. -/
def foundIn (h : Heap) (key : Handle) (E : List (Handle × Handle)) : Except Error (Option Handle) :=
  (search (h.sameAs key) (E.map Prod.fst)).map fun found => found.bind ((E.map Prod.snd)[·]?)

/-- A construction may keep any live object. -/
theorem Sound.protecting (sound : h.Sound none) (element : h.Element x) :
    { h with roots := h.roots.enter.protect x }.Sound none ∧ h.roots.toList ⊆ (h.roots.enter.protect x).toList ∧
      x ∈ { h with roots := h.roots.enter.protect x }.collectionRoots [] := by
  refine ⟨sound.rerooted fun y member => ?_, fun y member => ?_, ?_⟩
  · have cases : y ∈ h.roots.toList ∨ y = x := by
      simpa [RootSet.toList, RootSet.enter, RootSet.protect, or_assoc] using member
    rcases cases with root | rfl
    · exact sound.roots y (List.mem_append_left _ (List.mem_append_left _ root))
    · exact element
  · simp only [RootSet.toList, RootSet.enter, RootSet.protect, List.mem_append] at member ⊢
    exact member.imp_right .inl
  · simp [collectionRoots, RootSet.toList, RootSet.protect]

end Heap

namespace DictObject

open Heap

variable {m m₁ : Machine} {d ks vs key value : Handle} {E F : List (Handle × Handle)} {pin : Option Handle} {h : Heap}
  {i : Nat}

/-- Looking for a key that passes a test is searching the keys. -/
theorem run_findAmong {test : Heap → Handle → Except Error Bool} (sound : m.heap.Sound none) (has : m.heap.HasEntries d ks vs E)
    (steady : ∀ g, Glanced m.heap g → ∀ x ∈ E.map Prod.fst, test g x = test m.heap x) :
    ∃ m', (findFrom ks test E.length 0).run m = (search (test m.heap) (E.map Prod.fst), m') ∧ Glanced m.heap m'.heap := by
  have all : 0 + E.length = (E.map Prod.fst).length := by rw [List.length_map, Nat.zero_add]
  obtain ⟨m', ran, glanced⟩ := run_findFrom sound has.keys steady all
  refine ⟨m', ran.trans ?_, glanced⟩
  rw [List.drop_zero]
  cases search (test m.heap) (E.map Prod.fst) with
  | error e => rfl
  | ok found => cases found <;> rfl

theorem run_findKey (sound : m.heap.Sound none) (has : m.heap.HasEntries d ks vs E)
    (live : ∃ p, m.heap.find? key = some p) :
    ∃ m', (findKey ⟨E.length, ks, vs⟩ key).run m = (search (m.heap.sameAs key) (E.map Prod.fst), m') ∧
      Glanced m.heap m'.heap :=
  run_findAmong sound has fun _ glanced _ member => glanced.sameAs sound live (sound.element_of_ref has.keys member)

/-- Replacing a value. -/
theorem replace_effect (sound : m.heap.Sound none) (has : m.heap.HasEntries d ks vs E) (element : m.heap.Element value)
    (inside : i < E.length) :
    ∃ m', (SegList.set vs i value).run m = (.ok (), m') ∧ Altered (Parts d ks vs) m.heap m'.heap ∧
      m'.heap.HasEntries d ks vs (E.modify i fun e => (e.1, value)) := by
  obtain ⟨c, carries, items⟩ := sound.carries_of_items has.vals
  have kept : Kept false (fun _ => True) m.heap ((SegList.set vs i value).run m).2.heap :=
    (SegList.set_updated (s := vs) i sound.orderly element).kept sound (fun _ _ _ _ _ => rfl) trivial
  obtain ⟨m', ran, filled⟩ := SegList.set_filled sound.orderly carries element (by rw [items, List.length_map]; exact inside)
  obtain ⟨shows, stored, -⟩ := filled.shows sound (by simp)
  rw [ran] at kept
  refine ⟨m', ran, (shows.mono fun x same => .inr (.inr same)).altered sound kept.sound, ?_, ?_, ?_⟩
  · rw [shows.kept d has.ne_vals has.element, has.record, List.length_modify]
  · rw [shows.kept ks (has.separate sound) (sound.element_iff.2 ⟨_, has.keys⟩), has.keys, map_fst_modify]
  · rw [stored, items, map_snd_modify]

/-- When both storages have been updated, the table is told its new length. -/
theorem run_recount (resize : Nat → Nat) (shows : Shows pin (Parts d ks vs) h m.heap) (shaped : m.heap.Shaped)
    (record : m.heap.content? d = some (.record (.dict ⟨E.length, ks, vs⟩)))
    (keys : m.heap.content? ks = some (.items (F.map Prod.fst))) (vals : m.heap.content? vs = some (.items (F.map Prod.snd)))
    (length : F.length = resize E.length) :
    ∃ m', (modifyRecord d fun r => { r with length := resize r.length }).run m = (.ok (), m') ∧
      Shows pin (Parts d ks vs) h m'.heap ∧ m'.heap.HasEntries d ks vs F := by
  have found := (find?_of_record record).1
  obtain ⟨m', wrote, edited, written⟩ := modifyRecord_spec (fun r => { r with length := resize r.length }) found
  have updated := edited.content? shaped found written rfl (by simp [Payload.tag]) (by simp [Payload.tag])
  refine ⟨m', wrote, shows.trans (shows_of_update edited.toUpkeep updated (.inl rfl) fun y lasts => ?_), ?_, ?_, ?_⟩
  · exact edited.held found written rfl (List.Subset.refl _) lasts
  · rw [updated, Function.update_self, length]
  · rw [updated, Function.update_of_ne, keys]
    rintro rfl
    rw [record] at keys
    cases keys
  · rw [updated, Function.update_of_ne, vals]
    rintro rfl
    rw [record] at vals
    cases vals

/-- Updates of both storages that take entries away, and cannot fail. -/
theorem run_shrink (resize : Nat → Nat) {first second : HeapM Unit} {c : Chain} (sound : m.heap.Sound none)
    (has : m.heap.HasEntries d ks vs E) (ran : first.run m = (.ok (), m₁))
    (filled : Filled none ks c (F.map Prod.fst) m.heap (.ok (), m₁))
    (next : ∀ c', m₁.heap.Sound (some d) → m₁.heap.Carries vs c' → (c'.map Prod.snd).flatten = E.map Prod.snd →
      ∃ m₂, second.run m₁ = (.ok (), m₂) ∧ Filled none vs c' (F.map Prod.snd) m₁.heap (.ok (), m₂))
    (length : F.length = resize E.length) :
    ∃ m', (do first; second; modifyRecord d fun r => { r with length := resize r.length }).run m = (.ok (), m') ∧
      Shows none (Parts d ks vs) m.heap m'.heap ∧ m'.heap.HasEntries d ks vs F := by
  have separate := has.separate sound
  have held : m.heap.Held none d := has.element
  obtain ⟨shows₁, keys₁, shaped₁⟩ := filled.shows sound (by simp)
  have loose := filled.loosened sound (.inl rfl) has.find? (by simp [Payload.storages]) held (by simp)
  have vals₁ : m₁.heap.content? vs = some (.items (E.map Prod.snd)) :=
    (shows₁.kept vs separate.symm (sound.element_iff.2 ⟨_, has.vals⟩)).trans has.vals
  obtain ⟨c', carries, items⟩ := shaped₁.carries_of_items vals₁
  obtain ⟨m₂, ran₂, filled₂⟩ := next c' loose carries items
  obtain ⟨shows₂, vals₂, shaped₂⟩ := filled₂.shows loose (by simp)
  have keys₂ : m₂.heap.content? ks = some (.items (F.map Prod.fst)) :=
    (shows₂.kept ks separate (shaped₁.element_iff.2 ⟨_, keys₁⟩)).trans keys₁
  have record : m₂.heap.content? d = some (.record (.dict ⟨E.length, ks, vs⟩)) := by
    rw [shows₂.kept d has.ne_vals (shows₁.held d held), shows₁.kept d has.ne_keys held, has.record]
  have shows : Shows none (Parts d ks vs) m.heap m₂.heap :=
    (shows₁.mono fun x same => .inr (.inl same)).trans (shows₂.mono fun x same => .inr (.inr same))
  rw [run_bind_ok ran, run_bind_ok ran₂]
  exact run_recount resize shows shaped₂ record keys₂ vals₂ length

/-- Removing an entry. -/
theorem run_dropEntry (sound : m.heap.Sound none) (has : m.heap.HasEntries d ks vs E) (inside : i < E.length) :
    ∃ m', (do
        SegList.remove ks i
        SegList.remove vs i
        modifyRecord d fun r => { r with length := r.length - 1 }).run m = (.ok (), m') ∧
      Shows none (Parts d ks vs) m.heap m'.heap ∧ m'.heap.HasEntries d ks vs (E.eraseIdx i) := by
  obtain ⟨c, carries, items⟩ := sound.carries_of_items has.keys
  obtain ⟨m₁, ran, filled⟩ := SegList.remove_filled (i := i) sound.orderly carries (by rwa [items, List.length_map])
  rw [items, List.eraseIdx_map] at filled
  refine run_shrink (· - 1) sound has ran filled (fun c' loose carries' items' => ?_) (List.length_eraseIdx_of_lt inside)
  rw [← List.eraseIdx_map, ← items']
  exact SegList.remove_filled loose.orderly carries' (by rwa [items', List.length_map])

/-- Removing all entries. -/
theorem run_dropEntries (sound : m.heap.Sound none) (has : m.heap.HasEntries d ks vs E) :
    ∃ m', (do
        SegList.clear ks
        SegList.clear vs
        modifyRecord d fun r => { r with length := 0 }).run m = (.ok (), m') ∧
      Shows none (Parts d ks vs) m.heap m'.heap ∧ m'.heap.HasEntries d ks vs [] := by
  obtain ⟨c, carries, items⟩ := sound.carries_of_items has.keys
  obtain ⟨m₁, ran, filled⟩ := SegList.clear_filled carries
  exact run_shrink (fun _ => 0) sound has ran filled (fun c' _ carries' _ => SegList.clear_filled carries') rfl

/-- Adding an entry. The key alone is taken back when there is no room for its value. -/
theorem run_appendEntry (sound : m.heap.Sound none) (has : m.heap.HasEntries d ks vs E) (rooted : m.heap.Rooted d)
    (key_live : m.heap.Element key) (value_live : m.heap.Anchored value) :
    (∃ e m', (appendEntry ⟨E.length, ks, vs⟩ key value).run m = (.error e, m') ∧ e.kind = .memory ∧
        E.length % segmentCapacity = 0 ∧ Altered (fun _ => False) m.heap m'.heap) ∨
      ∃ m', (appendEntry ⟨E.length, ks, vs⟩ key value).run m = (.ok (), m') ∧ m'.heap.Shaped ∧
        Shows (some key) (Parts d ks vs) m.heap m'.heap ∧
        m'.heap.content? d = some (.record (.dict ⟨E.length, ks, vs⟩)) ∧
        m'.heap.content? ks = some (.items ((E ++ [(key, value)]).map Prod.fst)) ∧
        m'.heap.content? vs = some (.items ((E ++ [(key, value)]).map Prod.snd)) := by
  have separate := has.separate sound
  have held : m.heap.Anchored d := ⟨rooted, has.element⟩
  have keys_held := has.anchored_keys sound.toShaped rooted
  have vals_held := has.anchored_vals sound.toShaped rooted
  obtain ⟨c, carries, items⟩ := sound.carries_of_items has.keys
  have filled₁ := SegList.append_filled sound.orderly carries keys_held.1 key_live
  rw [items] at filled₁
  -- the key goes first; while its value is missing the table is out of step with its parts
  rcases ran₁ : (SegList.append ks key).run m with ⟨e | ⟨⟩, m₁⟩
  · left
    rw [ran₁] at filled₁
    cases filled₁ with
    | failed cleared memory full _ =>
      refine ⟨e, m₁, by rw [appendEntry, run_bind_error ran₁], memory, ?_, (cleared.shows sound).altered sound (cleared.sound sound)⟩
      rwa [items, List.length_map] at full
  rw [ran₁] at filled₁
  have grows : some key ≠ none → (c.map Prod.snd).flatten ⊆ E.map Prod.fst ++ [key] :=
    fun _ => items ▸ List.subset_append_left _ _
  obtain ⟨shows₁, keys₁, shaped₁⟩ := filled₁.shows sound grows
  have loose := filled₁.loosened sound (.inl rfl) has.find? (by simp [Payload.storages]) held grows
  have vals₁ : m₁.heap.content? vs = some (.items (E.map Prod.snd)) :=
    (shows₁.kept vs separate.symm vals_held).trans has.vals
  have table₁ : m₁.heap.Anchored d := shows₁.held d held
  have keys_held₁ : m₁.heap.Anchored ks := shows₁.held ks keys_held
  have vals_held₁ : m₁.heap.Anchored vs := shows₁.held vs vals_held
  have value₁ : m₁.heap.Anchored value := shows₁.held value value_live
  obtain ⟨c', carries', items'⟩ := shaped₁.carries_of_items vals₁
  have filled₂ := SegList.append_filled loose.orderly carries' vals_held₁.1 value₁.2
  rw [items'] at filled₂
  rcases ran₂ : (SegList.append vs value).run m₁ with ⟨e | ⟨⟩, m₂⟩
  · left
    rw [ran₂] at filled₂
    cases filled₂ with
    | failed cleared memory full _ =>
      have shows₂ : Shows (some key) (· = ks) m₁.heap m₂.heap := (cleared.shows loose).repin
      have loose₂ := cleared.sound loose
      have keys₂ := (cleared.shows (S := fun _ => False) loose).kept ks not_false keys_held₁
      rw [keys₁] at keys₂
      -- the key is the last one, and goes
      obtain ⟨c₂, carries₂, items₂⟩ := loose₂.carries_of_items keys₂
      obtain ⟨m₃, ran₃, filled₃⟩ := SegList.remove_filled (i := E.length) loose₂.orderly carries₂ (by simp [items₂])
      obtain ⟨shows₃, keys₃, -⟩ := filled₃.shows loose₂ (by simp)
      have back : (E.map Prod.fst ++ [key]).eraseIdx E.length = E.map Prod.fst := by
        rw [List.eraseIdx_append_of_length_le (by simp)]
        simp
      rw [items₂, back] at keys₃
      have ran : (appendEntry ⟨E.length, ks, vs⟩ key value).run m = (.error e, m₃) := by
        rw [appendEntry, run_bind_ok ran₁, run_recover, ran₂]
        exact run_bind_ok ran₃
      have sound₃ : m₃.heap.Sound none := by
        rcases appendEntry_spec sound has.find? held key_live value_live with ⟨_, _, failed, kept⟩ | ⟨_, done, -⟩
        · rw [ran] at failed
          cases failed
          exact (kept : Kept false _ _ _).sound
        · rw [ran] at done
          cases done
      refine ⟨e, m₃, ran, memory, by rwa [items', List.length_map] at full, ?_⟩
      exact ((shows₁.trans shows₂).altered_then shows₃ sound sound₃).undone (keys₃.trans has.keys.symm)
  · right
    rw [ran₂] at filled₂
    obtain ⟨shows, vals₂, shaped₂⟩ := filled₂.shows loose fun _ => items' ▸ List.subset_append_left _ _
    have shows₂ : Shows (some key) (· = vs) m₁.heap m₂.heap := shows.repin
    refine ⟨m₂, by rw [appendEntry, run_bind_ok ran₁, run_recover, ran₂], shaped₂, ?_, ?_, ?_, ?_⟩
    · exact (shows₁.mono fun x same => .inr (.inl same)).trans (shows₂.mono fun x same => .inr (.inr same))
    · rw [shows₂.kept d has.ne_vals table₁, shows₁.kept d has.ne_keys held, has.record]
    · rw [shows₂.kept ks separate keys_held₁, keys₁, List.map_append]
      rfl
    · rw [vals₂, List.map_append]
      rfl

/-- Adding an entry, as a construction that keeps the value meanwhile. -/
theorem addEntry_effect (sound : m.heap.Sound none) (has : m.heap.HasEntries d ks vs E) (rooted : m.heap.Rooted d)
    (key_live : m.heap.Element key) (value_live : m.heap.Element value) :
    Effect (Parts d ks vs) m.heap (fun _ => E.length % segmentCapacity = 0)
      (fun g => g.HasEntries d ks vs (E ++ [(key, value)]))
      ((guarded do
        protect value
        appendEntry ⟨E.length, ks, vs⟩ key value
        modifyRecord d fun r => { r with length := r.length + 1 }).run m) := by
  have storable : Storable d key value ⟨E.length, ks, vs⟩ m.heap := ⟨has.find?, ⟨rooted, has.element⟩, key_live, value_live⟩
  have kept : Kept false (Parts d ks vs) m.heap _ := (keeps_store d key value ⟨E.length, ks, vs⟩ none m sound storable).1
  have building : Kept true (Parts d ks vs) (m.mapRoots RootSet.enter).heap _ :=
    (keeps_addEntry d key value ⟨E.length, ks, vs⟩ (m.mapRoots RootSet.enter) (sound.rerooted fun x member =>
      sound.roots x (List.mem_append_left _ (List.mem_append_left _ member)))
      { storable with table := storable.table.rerooted (List.Subset.refl _) }).1
  -- the machine inside the construction
  let m₂ : Machine := (m.mapRoots RootSet.enter).mapRoots fun r => r.protect value
  obtain ⟨sound₂, wider, inside⟩ := sound.protecting value_live
  have left : (m.heap.roots.enter.protect value).leave m.heap.roots.inFlight.length = m.heap.roots :=
    m.heap.roots.leave_enter [value]
  have body : (do
        protect value
        appendEntry ⟨E.length, ks, vs⟩ key value
        modifyRecord d fun r => { r with length := r.length + 1 }).run (m.mapRoots RootSet.enter) =
      (do
        appendEntry ⟨E.length, ks, vs⟩ key value
        modifyRecord d fun r => { r with length := r.length + 1 }).run m₂ := rfl
  have value₂ : m₂.heap.Anchored value := ⟨.start inside, value_live⟩
  simp only [run_guarded, body] at kept building ⊢
  rcases run_appendEntry (m := m₂) sound₂ (has.rerooted sound.toShaped _) (rooted.rerooted wider) key_live value₂ with
    ⟨e, m₃, failed, memory, full, altered⟩ | ⟨m₃, done, shaped, shows, record, keys, vals⟩
  · simp only [run_bind_error failed] at kept ⊢
    have roots : m₃.heap.roots.leave m.heap.roots.inFlight.length = m.heap.roots := by
      rw [altered.roots]
      exact left
    refine .noRoom memory ?_ full
    have sound₃ := kept.sound
    simp only [Machine.mapRoots, roots] at sound₃ ⊢
    exact Altered.guarded (h := m.heap) altered sound wider sound₃
  · obtain ⟨m₄, wrote, shows₄, holds⟩ := run_recount (F := E ++ [(key, value)]) (· + 1) shows shaped record keys vals (by simp)
    simp only [run_bind_ok done, wrote] at kept building ⊢
    have roots : m₄.heap.roots.leave m.heap.roots.inFlight.length = m.heap.roots := by
      rw [shows₄.roots]
      exact left
    have sound₄ := kept.sound
    simp only [Machine.mapRoots, roots] at sound₄ ⊢
    refine .done (Altered.guarded (h := m.heap) (shows₄.altered sound₂ building.sound) sound wider sound₄) ?_
    exact holds.rerooted building.sound.toShaped _

theorem run_record (has : m.heap.HasEntries d ks vs E) :
    (inspect fun h => h.dictRecord d).run m = (.ok ⟨E.length, ks, vs⟩, m) :=
  run_inspect_ok (dictRecord_eq_ok_iff.2 has.find?)

/-- Looking up the value of the first key that passes a test. -/
theorem run_lookupBy {test : Heap → Handle → Except Error Bool} (sound : m.heap.Sound none) (has : m.heap.HasEntries d ks vs E)
    (steady : ∀ g, Glanced m.heap g → ∀ x ∈ E.map Prod.fst, test g x = test m.heap x) :
    ∃ m', (do
        let r ← inspect fun h => h.dictRecord d
        let found ← findFrom r.keys test r.length 0
        valueAt r found).run m =
        ((search (test m.heap) (E.map Prod.fst)).map fun found => found.bind ((E.map Prod.snd)[·]?), m') ∧
      Glanced m.heap m'.heap := by
  obtain ⟨m₁, searched, glanced⟩ := run_findAmong sound has steady
  rw [run_bind_ok (run_record has)]
  cases result : search (test m.heap) (E.map Prod.fst) with
  | error e =>
    rw [result] at searched
    exact ⟨m₁, by rw [run_bind_error searched]; rfl, glanced⟩
  | ok found =>
    rw [result] at searched
    rw [run_bind_ok searched]
    cases found with
    | none => exact ⟨m₁, rfl, glanced⟩
    | some i =>
      obtain ⟨m₂, got, glanced'⟩ := SegList.run_get (glanced.sound none sound) (has.glanced glanced sound).vals i
      have inside : i < (E.map Prod.snd).length := by
        have := lt_length_of_search result
        rwa [List.length_map] at this ⊢
      refine ⟨m₂, ?_, glanced.trans glanced'⟩
      rw [List.getElem?_eq_getElem inside, Option.elim_some] at got
      rw [valueAt, map_eq_pure_bind, run_bind_ok got]
      show _ = (Except.ok ((E.map Prod.snd)[i]?), m₂)
      rw [List.getElem?_eq_getElem inside]
      rfl

/-- Looking up a key. -/
theorem run_lookup (sound : m.heap.Sound none) (has : m.heap.HasEntries d ks vs E) (live : ∃ p, m.heap.find? key = some p) :
    ∃ m', (lookup d key).run m = (m.heap.foundIn key E, m') ∧ Glanced m.heap m'.heap :=
  run_lookupBy sound has fun _ glanced _ member => glanced.sameAs sound live (sound.element_of_ref has.keys member)

end DictObject

/-! ### Keys -/

namespace Heap

variable {h g : Heap} {d ks vs key other value x : Handle} {E F : List (Handle × Handle)} {i : Nat} {e : Error}

theorem compare_symm (sound : h.Sound none) (left : h.Element key) (right : h.Element other) :
    h.compare key other = h.compare other key := by
  obtain ⟨_, found, -⟩ := left
  obtain ⟨_, found', -⟩ := right
  exact compareWithin_symm sound _ found found'

/-- An object compares with a key as with any key that is the same. -/
theorem sameAs_congr (sound : h.Sound none) (key_live : h.Element key) (other_live : h.Element other) (live : h.Element x)
    (same : h.compare key other = .ok .same) : h.sameAs other x = h.sameAs key x := by
  obtain ⟨_, found, -⟩ := id key_live
  obtain ⟨_, found', -⟩ := id other_live
  obtain ⟨_, third, -⟩ := id live
  have congr : h.compare key x = h.compare other x := compareWithin_congr sound _ found found' third same
  rw [sameAs, sameAs, compare_symm sound live other_live, ← congr, compare_symm sound live key_live]

/-- An object that is the same as `key` compares with others as `key` does. -/
theorem sameAs_of_same (sound : h.Sound none) (key_live : h.Element key) (other_live : h.Element other)
    (live : h.Element x) (same : h.sameAs key x = .ok true) : h.sameAs other x = h.sameAs other key := by
  obtain ⟨_, found, -⟩ := id key_live
  obtain ⟨_, found', -⟩ := id live
  obtain ⟨_, third, -⟩ := id other_live
  have equal : h.compare x key = .ok .same := by
    obtain ⟨comparison, compared, passed⟩ := except_map_ok same
    rw [compared]
    simpa using passed
  have congr : h.compare x other = h.compare key other := compareWithin_congr sound _ found' found third equal
  rw [sameAs, sameAs, congr]

theorem foundIn_eq_none_iff : h.foundIn key E = .ok none ↔ search (h.sameAs key) (E.map Prod.fst) = .ok none := by
  rw [foundIn]
  cases result : search (h.sameAs key) (E.map Prod.fst) with
  | error e => simp [Except.map]
  | ok found =>
    cases found with
    | none => simp [Except.map]
    | some i =>
      have inside := lt_length_of_search result
      rw [List.length_map] at inside
      simp [Except.map, inside]

/-- What a lookup gives after `value` has been stored under a key, where it gave
`before`; `compared` is the comparison of the two keys. -/
def Recalls (compared : Except Error Comparison) (value : Handle) (before after : Except Error (Option Handle)) : Prop :=
  match compared with
  | .ok .same => after = .ok (some value)
  | .ok .differ => after = before
  | .error e => (before = .ok none → after = .error e) ∧ (before ≠ .ok none → after = before)

/-- Lookups after the value of an entry has been replaced. -/
theorem recalls_modify (value : Handle) (sound : h.Sound none) (key_live : h.Element key) (other_live : h.Element other)
    (live : ∀ x ∈ E.map Prod.fst, h.Element x) (searched : search (h.sameAs key) (E.map Prod.fst) = .ok (some i)) :
    Recalls (h.compare key other) value (h.foundIn other E) (h.foundIn other (E.modify i fun e => (e.1, value))) := by
  obtain ⟨⟨x, here, passed⟩, -⟩ := search_eq_some_iff.1 searched
  have inside := lt_length_of_search searched
  have tested := sameAs_of_same sound key_live other_live (live x (List.mem_of_getElem? here)) passed
  have ends : search (h.sameAs other) (E.map Prod.fst) = .ok (some i) → h.sameAs other key = .ok true := by
    intro found
    obtain ⟨⟨y, there, wrong⟩, -⟩ := search_eq_some_iff.1 found
    rw [here] at there
    cases there
    exact tested.symm.trans wrong
  -- a search that does not end at the entry gives what it gave
  have elsewhere : h.sameAs other key ≠ .ok true → h.foundIn other (E.modify i fun e => (e.1, value)) = h.foundIn other E := by
    intro apart
    rw [foundIn, foundIn, map_fst_modify, map_snd_modify]
    cases result : search (h.sameAs other) (E.map Prod.fst) with
    | error e => rfl
    | ok found =>
      cases found with
      | none => rfl
      | some j =>
        have different : i ≠ j := by
          rintro rfl
          exact apart (ends result)
        simp only [Except.map, Option.bind_some, List.getElem?_set_ne different]
  cases compared : h.compare key other with
  | error e =>
    have failed : h.sameAs other key = .error e := by rw [sameAs, compared]; rfl
    refine ⟨fun absent => ?_, fun _ => elsewhere (by rw [failed]; simp)⟩
    have plain := search_eq_none_iff.1 (foundIn_eq_none_iff.1 absent) x (List.mem_of_getElem? here)
    rw [tested, failed] at plain
    cases plain
  | ok comparison =>
    cases comparison with
    | same =>
      have same : search (h.sameAs other) (E.map Prod.fst) = .ok (some i) := by
        rw [search_congr fun x member => sameAs_congr sound key_live other_live (live x member) compared, searched]
      show h.foundIn other _ = _
      rw [foundIn, map_fst_modify, map_snd_modify, same]
      have bound : i < (E.map Prod.snd).length := by rwa [List.length_map] at inside ⊢
      simp only [Except.map, Option.bind_some, List.getElem?_set_self bound]
    | differ =>
      have failed : h.sameAs other key = .ok false := by rw [sameAs, compared]; rfl
      exact elsewhere (by rw [failed]; simp)

/-- Lookups after an entry has been added. -/
theorem recalls_append (value : Handle) (sound : h.Sound none) (key_live : h.Element key) (other_live : h.Element other)
    (live : ∀ x ∈ E.map Prod.fst, h.Element x) (searched : search (h.sameAs key) (E.map Prod.fst) = .ok none) :
    Recalls (h.compare key other) value (h.foundIn other E) (h.foundIn other (E ++ [(key, value)])) := by
  -- among the old entries the lookup goes as before
  have earlier : search (h.sameAs other) (E.map Prod.fst) ≠ .ok none →
      h.foundIn other (E ++ [(key, value)]) = h.foundIn other E := by
    intro ended
    rw [foundIn, foundIn, List.map_append, List.map_append, search_append]
    cases result : search (h.sameAs other) (E.map Prod.fst) with
    | error e => rfl
    | ok found =>
      cases found with
      | none => exact absurd result ended
      | some j =>
        have inside := lt_length_of_search result
        rw [List.length_map, ← List.length_map (f := Prod.snd)] at inside
        simp only [Except.map, Option.bind_some, List.getElem?_append_left inside]
  -- past them it comes to the new one
  have later : search (h.sameAs other) (E.map Prod.fst) = .ok none →
      h.foundIn other (E ++ [(key, value)]) = (h.sameAs other key).map fun passed => if passed then some value else none := by
    intro passed
    rw [foundIn, List.map_append, List.map_append, search_append, passed]
    cases tested : h.sameAs other key with
    | error e => simp [search_cons_error tested, Except.map]
    | ok equal =>
      cases equal with
      | true => simp [search_cons_true tested, Except.map]
      | false => simp [search_cons_false tested, search, Except.map]
  cases compared : h.compare key other with
  | error e =>
    have failed : h.sameAs other key = .error e := by rw [sameAs, compared]; rfl
    refine ⟨fun absent => ?_, fun ended => earlier fun none => ended (foundIn_eq_none_iff.2 none)⟩
    rw [later (foundIn_eq_none_iff.1 absent), failed]
    rfl
  | ok comparison =>
    cases comparison with
    | same =>
      have passed : h.sameAs other key = .ok true := by rw [sameAs, compared]; rfl
      have none : search (h.sameAs other) (E.map Prod.fst) = .ok none := by
        rw [search_congr fun x member => sameAs_congr sound key_live other_live (live x member) compared, searched]
      show h.foundIn other _ = _
      rw [later none, passed]
      rfl
    | differ =>
      have failed : h.sameAs other key = .ok false := by rw [sameAs, compared]; rfl
      show h.foundIn other _ = h.foundIn other E
      by_cases none : search (h.sameAs other) (E.map Prod.fst) = .ok none
      · rw [later none, failed, foundIn_eq_none_iff.2 none]
        rfl
      · exact earlier none

/-- A change of a table, whatever it is, does not show in comparisons. -/
theorem HasEntries.compare {a b : Handle} (before : h.HasEntries d ks vs E) (after : g.HasEntries d ks vs F)
    (altered : Altered (DictObject.Parts d ks vs) h g) (sound : h.Sound none) (left : g.Element a) (right : g.Element b) :
    g.compare a b = h.compare a b := by
  have storage : ∀ {k : Heap} {s xs}, k.content? s = some (.items xs) → ∃ r, k.find? s = some (.seglist r) :=
    fun shown => (segListItems_of_items shown).1
  refine altered.compare sound ?_ ?_ left right
  · rintro x q (rfl | rfl | rfl) found
    · rw [after.find?] at found
      cases found
      exact ⟨_, before.find?, rfl, rfl⟩
    · obtain ⟨r, list⟩ := storage after.keys
      obtain ⟨r', list'⟩ := storage before.keys
      rw [list] at found
      cases found
      exact ⟨_, list', rfl, rfl⟩
    · obtain ⟨r, list⟩ := storage after.vals
      obtain ⟨r', list'⟩ := storage before.vals
      rw [list] at found
      cases found
      exact ⟨_, list', rfl, rfl⟩
  · rintro x r found part
    have owned := altered.sound.stores x _ found r.storage (List.mem_singleton_self _)
    have owner : r.storage ∈ (Payload.dict ⟨F.length, ks, vs⟩).storages → False := by
      intro stored
      obtain rfl := altered.sound.owner x d _ _ _ found after.find? (List.mem_singleton_self _) stored
      rw [after.find?] at found
      cases found
    rcases part with same | same | same
    · obtain ⟨_, list, -⟩ := owned
      rw [same, after.find?] at list
      cases list
    · exact owner (by simp [Payload.storages, same])
    · exact owner (by simp [Payload.storages, same])

/-- What is live after a change of a table was live before. -/
theorem HasEntries.element_of_altered (before : h.HasEntries d ks vs E) (altered : Altered (DictObject.Parts d ks vs) h g)
    (sound : h.Sound none) (live : g.Element x) : h.Element x := by
  by_cases part : DictObject.Parts d ks vs x
  · rcases part with rfl | rfl | rfl
    · exact before.element
    · exact sound.element_iff.2 ⟨_, before.keys⟩
    · exact sound.element_iff.2 ⟨_, before.vals⟩
  · obtain ⟨content, shown⟩ := altered.sound.element_iff.1 live
    exact sound.element_iff.2 ⟨content, altered.old x content part shown⟩

/-- Keys that differ still do after a change that does not show in comparisons. -/
theorem HasEntries.distinct (has : g.HasEntries d ks vs E) (sound : g.Sound none)
    (same : ∀ {a b}, g.Element a → g.Element b → g.compare a b = h.compare a b)
    (pairwise : E.Pairwise fun e f => h.compare e.1 f.1 = .ok .differ) :
    E.Pairwise fun e f => g.compare e.1 f.1 = .ok .differ := by
  have live : ∀ e ∈ E, g.Element e.1 := fun e member => sound.element_of_ref has.keys (List.mem_map_of_mem member)
  refine pairwise.imp_of_mem fun left right differ => ?_
  rw [same (live _ left) (live _ right), differ]

/-- Lookups in the changed table, in terms of the heap before. -/
theorem HasEntries.foundIn_eq (before : h.HasEntries d ks vs E) (after : g.HasEntries d ks vs F)
    (altered : Altered (DictObject.Parts d ks vs) h g) (sound : h.Sound none) (live : g.Element key) :
    g.foundIn key F = h.foundIn key F := by
  rw [foundIn, foundIn, search_congr fun x member => ?_]
  rw [sameAs, sameAs, before.compare after altered sound (altered.sound.element_of_ref after.keys member) live]

end Heap

/-! ### Operations that allocate nothing -/

/-- From `m` to `m'` nothing has been reported, and the figures of the heap are the same:
no chunk was allocated, released or collected. -/
def Machine.Quiet (m m' : Machine) : Prop :=
  m'.log = m.log ∧ m'.heap.stats = m.heap.stats

namespace HeapM

variable {α β : Type}

/-- The operation allocates and releases nothing. -/
def IsQuiet (op : HeapM α) : Prop :=
  ∀ m, Machine.Quiet m (op.run m).2

theorem isQuiet_pure (a : α) : IsQuiet (pure a : HeapM α) :=
  fun _ => ⟨rfl, rfl⟩

theorem isQuiet_throw (e : Error) : IsQuiet (throw e : HeapM α) :=
  fun _ => ⟨rfl, rfl⟩

theorem isQuiet_inspect (f : Heap → Except Error α) : IsQuiet (inspect f) :=
  fun _ => ⟨rfl, rfl⟩

theorem isQuiet_setPayload (x : Handle) (p : Payload) : IsQuiet (modify fun h => h.setPayload x p) :=
  fun _ => ⟨rfl, rfl⟩

theorem IsQuiet.bind {op : HeapM α} {f : α → HeapM β} (first : IsQuiet op) (second : ∀ a, IsQuiet (f a)) :
    IsQuiet (op >>= f) := by
  intro m
  have before := first m
  rw [run_bind]
  rcases ran : op.run m with ⟨e | a, m'⟩
  · rw [ran] at before
    exact before
  · rw [ran] at before
    have after := second a m'
    exact ⟨after.1.trans before.1, after.2.trans before.2⟩

end HeapM

namespace SegList

theorem isQuiet_locate (list : Handle) (index : Nat) : IsQuiet (locate list index) := by
  refine (isQuiet_inspect _).bind fun r => ?_
  split
  · exact (isQuiet_inspect _).bind fun seg => (isQuiet_setPayload _ _).bind fun _ => isQuiet_pure _
  · exact isQuiet_throw _

theorem isQuiet_get (list : Handle) (index : Nat) : IsQuiet (get list index) := by
  refine (isQuiet_locate list index).bind fun _ => (isQuiet_inspect _).bind fun r => ?_
  split
  · exact isQuiet_pure _
  · exact isQuiet_throw _

theorem isQuiet_set (list : Handle) (index : Nat) (x : Handle) : IsQuiet (set list index x) := by
  refine (isQuiet_locate list index).bind fun _ => (isQuiet_inspect _).bind fun r => ?_
  split
  · exact (isQuiet_inspect _).bind fun r => isQuiet_setPayload _ _
  · exact isQuiet_throw _

end SegList

theorem DictObject.isQuiet_findFrom (keys : Handle) (test : Heap → Handle → Except Error Bool) (count i : Nat) :
    IsQuiet (findFrom keys test count i) := by
  induction count generalizing i with
  | zero => exact isQuiet_pure _
  | succ count ih =>
    refine (SegList.isQuiet_get keys i).bind fun key => (isQuiet_inspect _).bind fun passed => ?_
    split
    · exact isQuiet_pure _
    · exact ih (i + 1)

/-! ### Calls -/

/-- A call on a table. -/
inductive TableCall where
  | set (key value : Handle)
  | erase (key : Handle)
  | clear

namespace TableCall

open Heap

/-- What a call does to a plain list of entries, where `same` says whether a key is
the one sought. -/
def onEntries (same : Handle → Handle → Except Error Bool) (E : List (Handle × Handle)) :
    TableCall → Except Error (List (Handle × Handle))
  | set key value => do
    match ← search (same key) (E.map Prod.fst) with
    | some i => .ok (E.modify i fun e => (e.1, value))
    | none => .ok (E ++ [(key, value)])
  | erase key => do
    match ← search (same key) (E.map Prod.fst) with
    | some i => .ok (E.eraseIdx i)
    | none => .error .keyMissing
  | clear => .ok []

/-- The call on a table of the heap. -/
def onHeap (d : Handle) : TableCall → HeapM Unit
  | set key value => DictObject.set d key value
  | erase key => DictObject.erase d key
  | clear => DictObject.clear d

/-- The objects that a call is given. -/
def operands : TableCall → List Handle
  | set key value => [key, value]
  | erase key => [key]
  | clear => []

/-- The call stores under a key that the scan finds nowhere. -/
def Adds (same : Handle → Handle → Except Error Bool) (E : List (Handle × Handle)) : TableCall → Prop
  | set key _ => search (same key) (E.map Prod.fst) = .ok none
  | _ => False

/-- The call stores under a key that the scan finds. -/
def Replaces (same : Handle → Handle → Except Error Bool) (E : List (Handle × Handle)) : TableCall → Prop
  | set key _ => ∃ i, search (same key) (E.map Prod.fst) = .ok (some i)
  | _ => False

/-- How a call on a table with the entries `E` has to end, and with what entries it
leaves the table. -/
inductive Outcome (call : TableCall) (E : List (Handle × Handle)) (m : Machine) :
    List (Handle × Handle) → Except Error Unit × Machine → Prop
  /-- A comparison has failed, or the key to be removed is not there. -/
  | refused {e : Error} {m' : Machine} (effect : call.onEntries m.heap.sameAs E = .error e) :
      Outcome call E m E (.error e, m')
  /-- The call has the effect it has on the list of entries. -/
  | done {F : List (Handle × Handle)} {m' : Machine} (effect : call.onEntries m.heap.sameAs E = .ok F) :
      Outcome call E m F (.ok (), m')
  /-- A new entry needs segments, and there is no room for one of them. -/
  | noRoom {e : Error} {m' : Machine} (adds : call.Adds m.heap.sameAs E) (memory : e.kind = .memory)
      (full : E.length % segmentCapacity = 0) : Outcome call E m E (.error e, m')

variable {call : TableCall} {m : Machine} {d ks vs : Handle} {E F : List (Handle × Handle)}

/-- What one call comes to. -/
structure Refines (call : TableCall) (d ks vs : Handle) (E F : List (Handle × Handle)) (m : Machine) : Prop where
  outcome : call.Outcome E m F ((call.onHeap d).run m)
  entries : ((call.onHeap d).run m).2.heap.HasEntries d ks vs F
  altered : Altered (DictObject.Parts d ks vs) m.heap ((call.onHeap d).run m).2.heap

/-- A call that changes at most cursors. -/
theorem Refines.of_reading {e : Error} {m' : Machine} (sound : m.heap.Sound none) (has : m.heap.HasEntries d ks vs E)
    (ran : (call.onHeap d).run m = (.error e, m')) (effect : call.onEntries m.heap.sameAs E = .error e)
    (glanced : Glanced m.heap m'.heap) : call.Refines d ks vs E E m := by
  constructor
  · rw [ran]
    exact .refused effect
  · rw [ran]
    exact has.glanced glanced sound
  · rw [ran]
    exact glanced.altered sound _

/-- A call that has its effect, possibly after a scan. -/
theorem Refines.of_update {m₁ m' : Machine} (sound : m.heap.Sound none) (glanced : Glanced m.heap m₁.heap)
    (ran : (call.onHeap d).run m = (.ok (), m')) (effect : call.onEntries m.heap.sameAs E = .ok F)
    (altered : Altered (DictObject.Parts d ks vs) m₁.heap m'.heap) (entries : m'.heap.HasEntries d ks vs F) :
    call.Refines d ks vs E F m := by
  constructor
  · rw [ran]
    exact .done effect
  · rw [ran]
    exact entries
  · rw [ran]
    exact altered.after glanced sound

/-- Storing. -/
theorem exists_refines_set (key value : Handle) (sound : m.heap.Sound none) (rooted : m.heap.Rooted d)
    (has : m.heap.HasEntries d ks vs E) (key_live : m.heap.Element key) (value_live : m.heap.Element value) :
    ∃ F, (set key value).Refines d ks vs E F m := by
  obtain ⟨m₁, searched, glanced⟩ := DictObject.run_findKey sound has key_live.live
  have sound₁ := glanced.sound none sound
  have has₁ := has.glanced glanced sound
  cases result : search (m.heap.sameAs key) (E.map Prod.fst) with
  | error e =>
    rw [result] at searched
    have ran : ((set key value).onHeap d).run m = (.error e, m₁) := by
      rw [onHeap, DictObject.set, run_bind_ok (DictObject.run_record has), run_bind_error searched]
    exact ⟨E, .of_reading sound has ran (by rw [onEntries, result]; rfl) glanced⟩
  | ok found =>
    rw [result] at searched
    have ran : ((set key value).onHeap d).run m = _ :=
      (run_bind_ok (DictObject.run_record has)).trans (run_bind_ok searched)
    cases found with
    | some i =>
      have inside := lt_length_of_search result
      rw [List.length_map] at inside
      obtain ⟨m', replaced, altered, entries⟩ :=
        DictObject.replace_effect sound₁ has₁ (glanced.element value_live) inside
      exact ⟨_, .of_update sound glanced (ran.trans replaced) (by rw [onEntries, result]; rfl) altered entries⟩
    | none =>
      have ends := DictObject.addEntry_effect sound₁ has₁ (glanced.rooted_iff.2 rooted) (glanced.element key_live)
        (glanced.element value_live)
      rw [← ran] at ends
      generalize outcome : ((set key value).onHeap d).run m = last at ends
      cases ends with
      | noRoom memory altered full =>
        have undone := altered.after glanced sound
        refine ⟨E, ?_, ?_, ?_⟩
        · rw [outcome]
          exact .noRoom result memory full
        · rw [outcome]
          exact has.altered undone sound rooted not_false not_false not_false
        · rw [outcome]
          exact undone.mono fun _ none => none.elim
      | done altered entries =>
        exact ⟨_, .of_update sound glanced outcome (by rw [onEntries, result]; rfl) altered entries⟩

/-- **One call.** -/
theorem exists_refines (call : TableCall) (sound : m.heap.Sound none) (rooted : m.heap.Rooted d)
    (has : m.heap.HasEntries d ks vs E) (live : ∀ x ∈ call.operands, m.heap.Element x) :
    ∃ F, call.Refines d ks vs E F m := by
  cases call with
  | set key value => exact exists_refines_set key value sound rooted has (live _ (by simp [operands])) (live _ (by simp [operands]))
  | erase key =>
    have kept : Kept false (fun _ => True) m.heap ((DictObject.erase d key).run m).2.heap :=
      (DictObject.keeps_erase d key m sound trivial).1
    obtain ⟨m₁, searched, glanced⟩ := DictObject.run_findKey sound has (live key (by simp [operands])).live
    cases result : search (m.heap.sameAs key) (E.map Prod.fst) with
    | error e =>
      rw [result] at searched
      have ran : ((erase key).onHeap d).run m = (.error e, m₁) := by
        rw [onHeap, DictObject.erase, run_bind_ok (DictObject.run_record has), run_bind_error searched]
      exact ⟨E, .of_reading sound has ran (by rw [onEntries, result]; rfl) glanced⟩
    | ok found =>
      rw [result] at searched
      have ran : (DictObject.erase d key).run m = _ :=
        (run_bind_ok (DictObject.run_record has)).trans (run_bind_ok searched)
      cases found with
      | none => exact ⟨E, .of_reading sound has ran (by rw [onEntries, result]; rfl) glanced⟩
      | some i =>
        have inside := lt_length_of_search result
        rw [List.length_map] at inside
        have sound₁ := glanced.sound none sound
        obtain ⟨m', dropped, shows, entries⟩ := DictObject.run_dropEntry sound₁ (has.glanced glanced sound) inside
        have whole := ran.trans dropped
        rw [whole] at kept
        exact ⟨_, .of_update sound glanced whole (by rw [onEntries, result]; rfl) (shows.altered sound₁ kept.sound) entries⟩
  | clear =>
    have kept : Kept false (fun _ => True) m.heap ((DictObject.clear d).run m).2.heap :=
      (DictObject.keeps_clear d m sound trivial).1
    obtain ⟨m', dropped, shows, entries⟩ := DictObject.run_dropEntries sound has
    have whole : (DictObject.clear d).run m = (.ok (), m') := (run_bind_ok (DictObject.run_record has)).trans dropped
    rw [whole] at kept
    exact ⟨[], .of_update sound (Glanced.refl _) whole rfl (shows.altered sound kept.sound) entries⟩

/-! ### What follows for the table -/

/-- Whatever its outcome, a call leaves the keys different from each other. -/
theorem Outcome.distinct {result : Except Error Unit × Machine} (outcome : call.Outcome E m F result)
    (distinct : E.Pairwise fun e f => m.heap.compare e.1 f.1 = .ok .differ) :
    F.Pairwise fun e f => m.heap.compare e.1 f.1 = .ok .differ := by
  cases outcome with
  | refused | noRoom => exact distinct
  | done effect =>
    cases call with
    | clear =>
      cases effect
      exact .nil
    | erase key =>
      obtain ⟨found, searched, effect⟩ := except_bind_ok effect
      cases found with
      | none => cases effect
      | some i =>
        cases effect
        exact distinct.sublist (List.eraseIdx_sublist _ _)
    | set key value =>
      obtain ⟨found, searched, effect⟩ := except_bind_ok effect
      cases found with
      | some i =>
        cases effect
        have keys : (E.map Prod.fst).Pairwise fun a b => m.heap.compare a b = .ok .differ := List.pairwise_map.2 distinct
        rw [← map_fst_modify E i value] at keys
        exact List.pairwise_map.1 keys
      | none =>
        cases effect
        refine List.pairwise_append.2 ⟨distinct, List.pairwise_singleton _ _, fun e member f new => ?_⟩
        obtain rfl := List.mem_singleton.1 new
        have failed := search_eq_none_iff.1 searched e.1 (List.mem_map_of_mem member)
        obtain ⟨comparison, compared, differ⟩ := except_map_ok failed
        rw [compared]
        cases comparison with
        | same => cases differ
        | differ => rfl

/-- Nothing is allocated to replace a value. -/
theorem quiet_of_replaces (sound : m.heap.Sound none) (has : m.heap.HasEntries d ks vs E)
    (live : ∀ x ∈ call.operands, m.heap.Element x) (replaces : call.Replaces m.heap.sameAs E) :
    m.Quiet ((call.onHeap d).run m).2 := by
  cases call with
  | erase | clear => exact replaces.elim
  | set key value =>
    obtain ⟨i, found⟩ := replaces
    obtain ⟨m₁, searched, -⟩ := DictObject.run_findKey sound has (live key (by simp [operands])).live
    rw [found] at searched
    have ran : ((set key value).onHeap d).run m = (SegList.set vs i value).run m₁ :=
      (run_bind_ok (DictObject.run_record has)).trans (run_bind_ok searched)
    have before := DictObject.isQuiet_findFrom ks (fun h candidate => (h.compare candidate key).map (· = .same)) E.length 0 m
    have after := SegList.isQuiet_set vs i value m₁
    rw [DictObject.findKey] at searched
    rw [searched] at before
    rw [ran]
    exact ⟨after.1.trans before.1, after.2.trans before.2⟩

/-- Lookups after a value has been stored. -/
theorem Refines.recalls {key value other : Handle} (refines : (set key value).Refines d ks vs E F m)
    (sound : m.heap.Sound none) (has : m.heap.HasEntries d ks vs E) (key_live : m.heap.Element key)
    (stored : ((DictObject.set d key value).run m).1 = .ok ()) (live : ((DictObject.set d key value).run m).2.heap.Element other) :
    Recalls (m.heap.compare key other) value ((DictObject.lookup d other).run m).1
      ((DictObject.lookup d other).run ((DictObject.set d key value).run m).2).1 := by
  obtain ⟨outcome, after, altered⟩ := refines
  simp only [onHeap] at outcome after altered
  have other_live := has.element_of_altered altered sound live
  obtain ⟨m₁, before, -⟩ := DictObject.run_lookup sound has other_live.live
  obtain ⟨m₂, looked, -⟩ := DictObject.run_lookup altered.sound after live.live
  rw [before, looked, has.foundIn_eq after altered sound live]
  have keys : ∀ x ∈ E.map Prod.fst, m.heap.Element x := fun x member => sound.element_of_ref has.keys member
  generalize (DictObject.set d key value).run m = result at outcome stored
  cases outcome with
  | refused | noRoom => cases stored
  | done effect =>
    obtain ⟨found, searched, effect⟩ := except_bind_ok effect
    cases found with
    | some i =>
      cases effect
      exact recalls_modify value sound key_live other_live keys searched
    | none =>
      cases effect
      exact recalls_append value sound key_live other_live keys searched

/-! ### Any number of calls -/

/-- The calls can be made one after the other: when its turn comes, each is about a
table that the roots lead to, with live operands; and the roots lead to `d`. -/
def Ready (d : Handle) : List (Handle × TableCall) → Machine → Prop
  | [], _ => True
  | (target, call) :: rest, m =>
    m.heap.Rooted d ∧ m.heap.Rooted target ∧ (∃ r, m.heap.dictRecord target = .ok r) ∧
      (∀ x ∈ call.operands, m.heap.Element x) ∧ Ready d rest ((call.onHeap target).run m).2

/-- One call on the table `d`, which has the entries `E` before and `F` after. -/
structure Behaves (call : TableCall) (d : Handle) (E F : List (Handle × Handle)) (m : Machine) : Prop where
  outcome : call.Outcome E m F ((call.onHeap d).run m)
  /-- A value is replaced without an allocation. -/
  quiet : call.Replaces m.heap.sameAs E → m.Quiet ((call.onHeap d).run m).2
  /-- What has been stored is found under every key that is the same, and under others
  what was there before. -/
  recalls : ∀ key value, call = set key value → ((call.onHeap d).run m).1 = .ok () →
    ∀ other, ((call.onHeap d).run m).2.heap.Element other →
      Recalls (m.heap.compare key other) value ((DictObject.lookup d other).run m).1
        ((DictObject.lookup d other).run ((call.onHeap d).run m).2).1
  /-- Nothing else that the roots lead to has changed. -/
  others : ∀ x, m.heap.Rooted x → x ≠ d → (∀ r, m.heap.find? d = some (.dict r) → x ≠ r.keys ∧ x ≠ r.vals) →
    ((call.onHeap d).run m).2.heap.content? x = m.heap.content? x

/-- Through the calls the table `d` behaves like an association list that starts with
`E`, and its keys differ from each other. -/
def Follows (d : Handle) : List (Handle × TableCall) → List (Handle × Handle) → Machine → Prop
  | [], E, m => m.heap.Tabulates d E
  | (target, call) :: rest, E, m =>
    m.heap.Tabulates d E ∧ ∃ F, (target = d → call.Behaves d E F m) ∧ (target ≠ d → F = E) ∧
      Follows d rest F ((call.onHeap target).run m).2

/-- A call on another table. -/
theorem hasEntries_of_other {t ks' vs' : Handle} {E' F' : List (Handle × Handle)} (sound : m.heap.Sound none)
    (rooted : m.heap.Rooted d) (has : m.heap.HasEntries d ks vs E) (target : m.heap.HasEntries t ks' vs' E') (other : t ≠ d)
    (refines : call.Refines t ks' vs' E' F' m) : ((call.onHeap t).run m).2.heap.HasEntries d ks vs E := by
  have storage : ∀ s, s = ks ∨ s = vs → ¬ (s = ks' ∨ s = vs') := fun s mine theirs =>
    other (sound.owner _ _ _ _ s target.find? has.find? (by simpa [Payload.storages] using theirs)
      (by simpa [Payload.storages] using mine))
  have apart : ∀ {x y z xs}, m.heap.HasEntries x y z xs → ∀ {s ys}, m.heap.content? s = some (.items ys) → s ≠ x := by
    rintro x y z xs table s ys items rfl
    rw [table.record] at items
    cases items
  refine has.altered refines.altered sound rooted ?_ ?_ ?_
  · rintro (rfl | rfl | rfl)
    · exact other rfl
    · exact apart has target.keys rfl
    · exact apart has target.vals rfl
  · rintro (rfl | theirs)
    · exact apart target has.keys rfl
    · exact storage ks (.inl rfl) theirs
  · rintro (rfl | theirs)
    · exact apart target has.vals rfl
    · exact storage vs (.inr rfl) theirs

/-- A table of a heap in order behaves like an association list in the order of
insertion, whatever is called on it and on other tables. -/
theorem calls_follow_entries (calls : List (Handle × TableCall)) (sound : m.heap.Sound none)
    (tabulates : m.heap.Tabulates d E) (ready : Ready d calls m) : Follows d calls E m := by
  induction calls generalizing m E with
  | nil => exact tabulates
  | cons step rest ih =>
    obtain ⟨target, call⟩ := step
    obtain ⟨rooted, reached, ⟨r, record⟩, live, later⟩ := ready
    refine ⟨tabulates, ?_⟩
    obtain ⟨ks, vs, has⟩ := tabulates.hasEntries
    by_cases same : target = d
    · subst same
      obtain ⟨F, refines⟩ := call.exists_refines sound rooted has live
      have distinct := refines.entries.distinct refines.altered.sound
        (has.compare refines.entries refines.altered sound) (refines.outcome.distinct tabulates.distinct)
      refine ⟨F, fun _ => ⟨refines.outcome, quiet_of_replaces sound has live, ?_, ?_⟩, absurd rfl,
        ih refines.altered.sound (refines.entries.tabulates distinct) later⟩
      · rintro key value rfl stored other other_live
        exact refines.recalls sound has (live key (by simp [operands])) stored other_live
      · intro x rooted' table storages
        refine refines.altered.kept x ?_ rooted'
        rintro (rfl | rfl | rfl)
        · exact table rfl
        · exact (storages _ has.find?).1 rfl
        · exact (storages _ has.find?).2 rfl
    · obtain ⟨E', subject⟩ := sound.hasEntries (dictRecord_eq_ok_iff.1 record)
      obtain ⟨F', refines⟩ := call.exists_refines sound reached subject live
      have entries := hasEntries_of_other sound rooted has subject same refines
      have distinct := entries.distinct refines.altered.sound
        (subject.compare refines.entries refines.altered sound) tabulates.distinct
      exact ⟨E, fun target => absurd target same, fun _ => rfl, ih refines.altered.sound (entries.tabulates distinct) later⟩

/-! ### Two tables in a small heap -/

/-- Whether a call can be made, with roots for the tables. -/
def checks (d : Handle) (step : Handle × TableCall) (m : Machine) : Bool :=
  m.heap.serves [d, step.1] step.2.operands && decide (∃ r, m.heap.dictRecord step.1 = .ok r)

theorem ready_of_checks {calls : List (Handle × TableCall)}
    (checked : passes (fun step m => ((step.2.onHeap step.1).run m).2) (checks d) calls m = true) : Ready d calls m := by
  refine of_passes (P := Ready d) (fun _ => trivial) ?_ checked
  rintro ⟨target, call⟩ rest m checked later
  rw [checks, Bool.and_eq_true, decide_eq_true_eq] at checked
  obtain ⟨rooted, live⟩ := serves_spec checked.1
  exact ⟨rooted d (by simp), rooted target (by simp), checked.2, live, later⟩

/-- A heap for two tables, one of them with entries, and one segment more. -/
def shared : HeapConfig := { arenaBytes := 140, maxChunkBytes := 32 }

/-- Make the tables and store under a key of the second. -/
def furnishing : List Call :=
  [.create .dict, .pushRoot ⟨6⟩, .create .dict, .pushRoot ⟨9⟩, .update (.dictSet ⟨9⟩ ⟨0⟩ ⟨1⟩)]

abbrev furnished : Machine :=
  Client.ended shared furnishing

theorem furnished_sound : furnished.heap.Sound none := by
  apply Regular.sound
  apply Client.regular_ended
  decide +kernel

/-- Calls on the first table: a key that is taken back, and when the second table has
been emptied, new keys, a new value, a key that is not there, and removals. -/
abbrev chores : List (Handle × TableCall) :=
  [(⟨6⟩, .set ⟨2⟩ ⟨3⟩), (⟨9⟩, .clear), (⟨6⟩, .set ⟨2⟩ ⟨3⟩), (⟨6⟩, .set ⟨0⟩ ⟨6⟩), (⟨6⟩, .set ⟨1⟩ ⟨1⟩), (⟨6⟩, .set ⟨0⟩ ⟨2⟩),
    (⟨6⟩, .erase ⟨2⟩), (⟨6⟩, .erase ⟨2⟩), (⟨6⟩, .clear)]

theorem calls_follow_entries_furnished :
    furnished.heap.Sound none ∧ furnished.heap.Tabulates ⟨6⟩ [] ∧ Ready ⟨6⟩ chores furnished ∧
      Follows ⟨6⟩ chores [] furnished := by
  have tabulates : furnished.heap.Tabulates ⟨6⟩ [] := by
    refine ⟨by decide +kernel, ⟨⟨0, ⟨4⟩, ⟨5⟩⟩, ?_⟩, .nil⟩
    decide +kernel
  have ready : Ready ⟨6⟩ chores furnished := ready_of_checks (by decide +kernel)
  exact ⟨furnished_sound, tabulates, ready, calls_follow_entries chores furnished_sound tabulates ready⟩

end TableCall

end ChunkHeap

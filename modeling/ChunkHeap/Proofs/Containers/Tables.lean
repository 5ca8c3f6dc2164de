import ChunkHeap.Proofs.Containers.Lists

/-!
# Attribute tables

A table has two storages, so an update passes through a state in which the table
is loose: one storage has been updated, the other not yet. Storing under a new
key may fail in that state, and then undoes its first half.
-/

namespace ChunkHeap
set_option autoImplicit false

open HeapM Heap

namespace DictObject

variable {building : Bool} {S : Handle → Prop} {pre : Heap → Prop} {resize : Nat → Nat} {r : DictRecord}
  {m : Machine} {dict key value : Handle} {h g k : Heap} {pin pin' : Option Handle}

theorem modifyRecord_spec (f : DictRecord → DictRecord) (found : m.heap.find? dict = some (.dict r)) :
    ∃ m', (modifyRecord dict f).run m = (.ok (), m') ∧ Edited (· = dict) m.heap m'.heap ∧
      m'.heap.find? dict = some (.dict (f r)) := by
  refine ⟨m.put dict (.dict (f r)), ?_, edited_setPayload found rfl rfl, find?_setPayload_self found _⟩
  rw [modifyRecord, run_bind_ok (run_inspect_ok (dictRecord_eq_ok_iff.2 found)), run_modify]
  rfl

theorem keeps_record (dict : Handle) :
    Keeps building S pre (inspect fun h => h.dictRecord dict) fun r h => h.find? dict = some (.dict r) ∧ pre h :=
  keeps_inspect fun _ _ start read => ⟨dictRecord_eq_ok_iff.1 read, start⟩

theorem keeps_new (kept : Handle → Prop) :
    Keeps building S (fun h => ∀ y, kept y → h.Anchored y) new fun x h =>
      (∃ keys vals, h.find? x = some (.dict ⟨0, keys, vals⟩) ∧ ∀ s ∈ [x, keys, vals], ¬ h.Rooted s) ∧
        ∀ y, kept y → h.Anchored y := by
  have first : Keeps building S (fun h => ∀ y, kept y → h.Anchored y) SegList.new
      fun s h => (∀ t ∈ [s], h.Blank t) ∧ ∀ y, kept y → h.Anchored y :=
    (keeps_allocateBlank kept []).mono (fun h anchored => ⟨by simp, anchored⟩)
      fun s h ⟨blank, _, anchored⟩ => ⟨blank, anchored⟩
  refine first.bind fun keys => (keeps_allocateBlank kept [keys]).bind fun vals => ?_
  by_cases separate : vals = keys
  · -- cannot be: the first storage is live while the second is made
    exact fun m _ start => absurd (by simp [separate]) start.2.1
  · refine (keeps_allocateContainer (.dict ⟨0, keys, vals⟩) (by simp [Payload.storages, Ne.symm separate]) rfl rfl
      (by simp [Payload.tag]) (by simp [Payload.tag])).mono (fun h ⟨blank, _, anchored⟩ => ⟨fun s member => ?_, anchored⟩)
        fun x h ⟨found, unrooted, anchored⟩ => ⟨⟨keys, vals, found, unrooted⟩, anchored⟩
    refine blank s ?_
    simp only [Payload.storages, List.mem_cons] at member ⊢
    tauto

/-! ### Both storages -/

/-- After both storages have been updated they are as long as each other. -/
theorem lengths_of_both (first : Refilled pin dict (.dict r) r.keys resize h g)
    (second : Refilled pin' dict (.dict r) r.vals resize g k) (sound : h.Sound none)
    (found : h.find? dict = some (.dict r)) :
    ∀ t ∈ (Payload.dict r).storages, ∃ l, k.find? t = some (.seglist l) ∧ l.length = resize r.length := by
  have separate : r.keys ≠ r.vals := by simpa [Payload.storages] using sound.separate dict _ found
  obtain ⟨l, keys, length⟩ := sound.stores dict _ found r.keys (by simp [Payload.storages])
  obtain ⟨l', vals, length'⟩ := sound.stores dict _ found r.vals (by simp [Payload.storages])
  intro t member
  rcases List.mem_pair.1 member with rfl | rfl
  · obtain ⟨l₁, there, count⟩ := first.storage l keys
    exact ⟨l₁, (second.others _ member separate).trans there, by rw [count, length (by simp)]; rfl⟩
  · obtain ⟨l₁, there, count⟩ := second.storage l' ((first.others _ member separate.symm).trans vals)
    exact ⟨l₁, there, by rw [count, length' (by simp)]; rfl⟩

/-- Telling the table the length of its storages. -/
theorem modifyRecord_settles (sound : m.heap.Sound (some dict)) (found : m.heap.find? dict = some (.dict r))
    (lengths : ∀ t ∈ (Payload.dict r).storages, ∃ l, m.heap.find? t = some (.seglist l) ∧ l.length = resize r.length) :
    ∃ m', (modifyRecord dict fun r => { r with length := resize r.length }).run m = (.ok (), m') ∧
      m'.heap.Sound none ∧ Edited (· = dict) m.heap m'.heap ∧
      m'.heap.find? dict = some (.dict { r with length := resize r.length }) := by
  obtain ⟨m', wrote, edited, written⟩ := modifyRecord_spec (fun r => { r with length := resize r.length }) found
  have stored : r.keys ∈ (Payload.dict r).storages := by simp [Payload.storages]
  refine ⟨m', wrote, edited.recounted sound found written stored rfl rfl rfl fun t member l there => ?_, edited, written⟩
  obtain ⟨l', there', length⟩ := lengths t member
  rw [there] at there'
  cases there'
  exact length

/-- Updates of both storages that do not collect, where the second succeeds after
the first. -/
theorem keeps_shrink (dict : Handle) (resize : Nat → Nat) {first second : HeapM Unit}
    (updates : ∀ m loose, m.heap.Sound loose → Updated none r.keys resize m.heap (first.run m))
    (updates' : ∀ m loose, m.heap.Sound loose → Updated none r.vals resize m.heap (second.run m))
    (follows : ∀ m m' l l', (first.run m).1 = .ok () → m'.heap.Sound (some dict) →
      m.heap.find? r.keys = some (.seglist l) → m'.heap.find? r.vals = some (.seglist l') → l'.length = l.length →
      (second.run m').1 = .ok ()) :
    Keeps building (fun _ => True) (fun h => h.find? dict = some (.dict r))
      (do first; second; modifyRecord dict fun r => { r with length := resize r.length }) fun _ _ => True := by
  intro m sound found
  have keys : r.keys ∈ (Payload.dict r).storages := by simp [Payload.storages]
  have vals : r.vals ∈ (Payload.dict r).storages := by simp [Payload.storages]
  have separate : r.keys ≠ r.vals := by simpa [Payload.storages] using sound.separate dict _ found
  obtain ⟨l, keys_found, length⟩ := sound.stores dict _ found _ keys
  obtain ⟨l', vals_found, length'⟩ := sound.stores dict _ found _ vals
  have held : m.heap.Held none dict := ⟨_, found, by simp [Payload.tag]⟩
  rcases (updates m none sound).owned sound (.inl rfl) found keys held with ⟨e, m', failed, cleared⟩ | ⟨m₁, done, refilled⟩
  · rw [run_bind_error failed]
    have ok := sound.accounted
    exact ⟨(cleared.upkeep ok).kept (cleared.sound sound) (cleared.confined ok), fun _ same => by cases same⟩
  · have vals_found' := (refilled.others _ vals separate.symm).trans vals_found
    have succeeds := follows m m₁ l l' (by rw [done]) refilled.sound keys_found vals_found'
      (by rw [length (by simp), length' (by simp)])
    rcases (updates' m₁ _ refilled.sound).owned refilled.sound (.inr rfl) refilled.container vals (refilled.held _ held) with
      ⟨e, m', failed, -⟩ | ⟨m₂, done', refilled'⟩
    · rw [failed] at succeeds
      cases succeeds
    · obtain ⟨m₃, wrote, sound₃, edited, -⟩ :=
        modifyRecord_settles refilled'.sound refilled'.container (lengths_of_both refilled refilled' sound found)
      rw [run_bind_ok done, run_bind_ok done', wrote]
      have upkeep := (refilled.toUpkeep.trans refilled'.toUpkeep).trans edited.toUpkeep
      exact ⟨upkeep.kept sound₃ (confined_everywhere _ _), fun _ _ => trivial⟩

theorem keeps_erase (dict key : Handle) :
    Keeps building (fun _ => True) (fun _ => True) (erase dict key) fun _ _ => True := by
  refine (keeps_record dict).bind fun r => ?_
  have searched : Reads (fun h => h.find? dict = some (.dict r)) (findKey r key) fun _ h => h.find? dict = some (.dict r) :=
    ((reads_findKey r key).steady fun _ _ glanced found => glanced.find? found (by simp [Payload.tag])).mono
      (fun _ found => found) fun _ _ facts => facts.2
  refine (searched.keeps.mono (fun _ facts => facts.1) fun _ _ found => found).bind fun position => ?_
  cases position with
  | none => exact keeps_throw _
  | some i =>
    refine keeps_shrink dict (· - 1) (fun _ _ sound => SegList.remove_updated i sound.orderly)
      (fun _ _ sound => SegList.remove_updated i sound.orderly) ?_
    intro m m' l l' done sound keys vals same
    have inside : i < l.length := by
      rcases SegList.locate_fails_or r.keys i m with ⟨e, failed⟩ | ⟨l₁, found, inside⟩
      · rw [SegList.remove, run_bind_error failed] at done
        cases done
      · rw [keys] at found
        cases found
        exact inside
    obtain ⟨c, chained⟩ := sound.chains _ _ vals
    obtain ⟨m'', c', removed, -⟩ := SegList.remove_spec (i := i) vals chained (by omega)
    rw [removed]

theorem keeps_clear (dict : Handle) :
    Keeps building (fun _ => True) (fun _ => True) (clear dict) fun _ _ => True := by
  refine (keeps_record dict).bind fun r => ?_
  refine (keeps_shrink dict (fun _ => 0) (fun _ _ sound => SegList.clear_updated sound.orderly)
    (fun _ _ sound => SegList.clear_updated sound.orderly) ?_).mono (fun _ facts => facts.1) fun _ _ _ => trivial
  intro m m' l l' _ sound _ vals _
  obtain ⟨c, chained⟩ := sound.chains _ _ vals
  obtain ⟨m'', cleared, -⟩ := SegList.clear_spec vals chained
  rw [cleared]

/-! ### Storing -/

/-- What a store may write to. -/
def Parts (dict keys vals : Handle) (x : Handle) : Prop :=
  x = dict ∨ x = keys ∨ x = vals

/-- A key without a value can be taken back. -/
theorem takeBack_spec {l l' : SegListRecord} (sound : m.heap.Sound (some dict))
    (found : m.heap.find? dict = some (.dict r)) (separate : r.keys ≠ r.vals)
    (keys : m.heap.find? r.keys = some (.seglist l)) (longer : l.length = r.length + 1)
    (vals : m.heap.find? r.vals = some (.seglist l')) (equal : l'.length = r.length) :
    ∃ m', (SegList.remove r.keys r.length).run m = (.ok (), m') ∧ Upkeep m.heap m'.heap ∧ m'.heap.Sound none ∧
      Confined (Parts dict r.keys r.vals) m.heap m'.heap := by
  have stored : r.keys ∈ (Payload.dict r).storages := by simp [Payload.storages]
  obtain ⟨c, chained⟩ := sound.chains _ _ keys
  obtain ⟨m', c', removed, -⟩ := SegList.remove_spec keys chained (show r.length < l.length by omega)
  have updated := SegList.remove_updated (s := r.keys) r.length sound.orderly
  rw [removed] at updated
  rcases updated.owned sound (.inr rfl) found stored ⟨_, found, by simp [Payload.tag]⟩ with
    ⟨e, _, wrong, -⟩ | ⟨_, same, refilled⟩
  · cases wrong
  · cases same
    refine ⟨m', removed, refilled.toUpkeep, refilled.sound.tighten refilled.container ?_,
      refilled.confined _ (.inr (.inl rfl))⟩
    intro t member
    rcases List.mem_pair.1 member with rfl | rfl
    · obtain ⟨l₁, there, count⟩ := refilled.storage l keys
      exact ⟨l₁, there, by rw [count, longer]; rfl⟩
    · exact ⟨l', (refilled.others _ member separate.symm).trans vals, equal⟩

/-- Appending an entry either fails, with nothing changed but for a collection, or
leaves a table that is still to be told its new length. -/
theorem appendEntry_spec (sound : m.heap.Sound none) (found : m.heap.find? dict = some (.dict r))
    (table : m.heap.Anchored dict) (key_live : m.heap.Element key) (value_live : m.heap.Anchored value) :
    (∃ e m', (appendEntry r key value).run m = (.error e, m') ∧ Kept building (Parts dict r.keys r.vals) m.heap m'.heap) ∨
      ∃ m', (appendEntry r key value).run m = (.ok (), m') ∧ Upkeep m.heap m'.heap ∧ m'.heap.Sound (some dict) ∧
        m'.heap.find? dict = some (.dict r) ∧ Confined (Parts dict r.keys r.vals) m.heap m'.heap ∧
        ∀ t ∈ (Payload.dict r).storages, ∃ l, m'.heap.find? t = some (.seglist l) ∧ l.length = r.length + 1 := by
  have keys : r.keys ∈ (Payload.dict r).storages := by simp [Payload.storages]
  have vals : r.vals ∈ (Payload.dict r).storages := by simp [Payload.storages]
  have separate : r.keys ≠ r.vals := by simpa [Payload.storages] using sound.separate dict _ found
  have stored : ∀ {h : Heap} {loose}, h.Sound loose → h.Anchored dict → h.find? dict = some (.dict r) →
      ∀ t ∈ (Payload.dict r).storages, h.Anchored t := fun sound anchored live t member =>
    ⟨reaches_edge anchored.1 live (Payload.storages_subset_children _ member), sound.refs dict _ live t member⟩
  have ok := sound.accounted
  rcases (SegList.append_updated sound.orderly (stored sound table found _ keys).1 key_live).owned sound (.inl rfl) found keys
    table with ⟨e, m', failed, cleared⟩ | ⟨m₁, done, refilled⟩
  · left
    refine ⟨e, m', by rw [appendEntry, run_bind_error failed], ?_⟩
    exact (cleared.upkeep ok).kept (cleared.sound sound) (cleared.confined ok)
  -- the roots lead to the table, so a collection for the second append spares it and its parts
  have table₁ : m₁.heap.Anchored dict := refilled.held _ table
  have value₁ : m₁.heap.Anchored value := refilled.held _ value_live
  have stored₁ := stored refilled.sound table₁ refilled.container
  have confined₁ := refilled.confined (Parts dict r.keys r.vals) (.inr (.inl rfl))
  rcases (SegList.append_updated refilled.sound.orderly (stored₁ _ vals).1 value₁.2).owned refilled.sound (.inr rfl)
    refilled.container vals table₁ with ⟨e, m₂, failed, cleared⟩ | ⟨m₂, done', refilled'⟩
  · left
    have ok₁ := refilled.sound.accounted
    obtain ⟨l, keys_found, length⟩ := sound.stores dict _ found _ keys
    obtain ⟨l', vals_found, length'⟩ := sound.stores dict _ found _ vals
    obtain ⟨l₁, keys₁, count⟩ := refilled.storage l keys_found
    have vals₁ := (refilled.others _ vals separate.symm).trans vals_found
    have lasts := fun t member => cleared.find? ok₁ (stored₁ t member)
    obtain ⟨m₃, removed, upkeep₃, sound₃, confined₃⟩ :=
      takeBack_spec (cleared.sound refilled.sound) ((cleared.find? ok₁ table₁).trans refilled.container) separate
        ((lasts _ keys).trans keys₁) (by rw [count, length (by simp)]; rfl) ((lasts _ vals).trans vals₁) (length' (by simp))
    have upkeep := refilled.toUpkeep.trans (cleared.upkeep ok₁)
    refine ⟨e, m₃, ?_, (upkeep.trans upkeep₃).kept sound₃ ?_⟩
    · rw [appendEntry, run_bind_ok done, run_recover, failed]
      exact run_bind_ok removed
    · exact (confined₁.trans refilled.toUpkeep.roots_subset (cleared.confined ok₁)).trans upkeep.roots_subset confined₃
  · right
    refine ⟨m₂, ?_, refilled.toUpkeep.trans refilled'.toUpkeep, refilled'.sound, refilled'.container, ?_,
      lengths_of_both refilled refilled' sound found⟩
    · rw [appendEntry, run_bind_ok done, run_recover, done']
    · exact confined₁.trans refilled.toUpkeep.roots_subset (refilled'.confined _ (.inr (.inr rfl)))

/-- A store under a key can go ahead: the table and what is to be stored will last. -/
structure Storable (dict key value : Handle) (r : DictRecord) (h : Heap) : Prop where
  found : h.find? dict = some (.dict r)
  table : h.Anchored dict
  key_live : h.Element key
  value_live : h.Element value

theorem Storable.glanced (storable : Storable dict key value r h) (glanced : Glanced h g) : Storable dict key value r g where
  found := glanced.find? storable.found (by simp [Payload.tag])
  table := glanced.anchored storable.table
  key_live := glanced.element storable.key_live
  value_live := glanced.element storable.value_live

/-- A new key, its value kept meanwhile. -/
theorem keeps_addEntry (dict key value : Handle) (r : DictRecord) :
    Keeps true (Parts dict r.keys r.vals) (Storable dict key value r)
      (do
        protect value
        appendEntry r key value
        modifyRecord dict fun r => { r with length := r.length + 1 })
      fun _ h => h.find? dict = some (.dict { r with length := r.length + 1 }) := by
  have kept : Keeps true (Parts dict r.keys r.vals) (Storable dict key value r) (protect value)
      fun _ h => Storable dict key value r h ∧ h.Rooted value := by
    refine keeps_protect value (fun _ storable => storable.value_live) fun h storable => ?_
    refine ⟨{ storable with table := storable.table.rerooted fun z root => ?_ }, .start ?_⟩
    · simp only [RootSet.toList, RootSet.protect, List.mem_append] at root ⊢
      exact root.imp_right .inl
    · simp [collectionRoots, RootSet.toList, RootSet.protect]
  refine kept.bind fun _ => ?_
  rintro m sound ⟨⟨found, table, key_live, value_live⟩, rooted⟩
  rcases appendEntry_spec sound found table key_live ⟨rooted, value_live⟩ with
    ⟨e, m', failed, kept⟩ | ⟨m₁, done, upkeep, sound₁, found₁, confined, lengths⟩
  · rw [run_bind_error failed]
    exact ⟨kept, fun _ same => by cases same⟩
  · obtain ⟨m₂, wrote, sound₂, edited, written⟩ := modifyRecord_settles sound₁ found₁ lengths
    rw [run_bind_ok done, wrote]
    exact ⟨(upkeep.trans edited.toUpkeep).kept sound₂ (confined.trans upkeep.roots_subset (edited.confined (.inl rfl))),
      fun _ _ => written⟩

/-- Storing in the table with record `r`, whose key has been searched for. -/
theorem keeps_store (dict key value : Handle) (r : DictRecord) (position : Option Nat) :
    Keeps building (Parts dict r.keys r.vals) (Storable dict key value r)
      (match position with
        | some i => SegList.set r.vals i value
        | none =>
          guarded do
            protect value
            appendEntry r key value
            modifyRecord dict fun r => { r with length := r.length + 1 })
      fun _ h => ∃ n, h.find? dict = some (.dict { r with length := n }) := by
  cases position with
  | none =>
    refine (keeps_addEntry dict key value r).guarded (fun h storable => ?_) fun _ _ _ found => ⟨_, found⟩
    exact { storable with table := storable.table.rerooted (List.Subset.refl _) }
  | some i =>
    intro m sound ⟨found, table, _, value_live⟩
    have vals : r.vals ∈ (Payload.dict r).storages := by simp [Payload.storages]
    have updated := SegList.set_updated (s := r.vals) i sound.orderly value_live
    refine ⟨updated.kept sound (fun _ _ _ _ _ => rfl) (.inr (.inr rfl)), fun _ done => ⟨r.length, ?_⟩⟩
    rcases updated.owned sound (.inl rfl) found vals table.2 with ⟨e, m', failed, -⟩ | ⟨m', done', refilled⟩
    · simp [failed] at done
    · simp only [done']
      exact refilled.container

/-- Storing writes to the table and its storages only, and they stay its storages. -/
theorem keeps_set (dict key value : Handle) (r : DictRecord) :
    Keeps building (Parts dict r.keys r.vals) (Storable dict key value r) (set dict key value)
      fun _ h => ∃ n, h.find? dict = some (.dict { r with length := n }) := by
  have record : Keeps building (Parts dict r.keys r.vals) (Storable dict key value r) (inspect fun h => h.dictRecord dict)
      fun r' h => r' = r ∧ Storable dict key value r h := by
    refine keeps_inspect fun h r' storable read => ⟨?_, storable⟩
    have found := dictRecord_eq_ok_iff.1 read
    rw [storable.found] at found
    cases found
    rfl
  refine record.bind fun r' m sound ⟨same, storable⟩ => ?_
  subst same
  have searched : Reads (Storable dict key value r') (findKey r' key) fun _ => Storable dict key value r' :=
    ((reads_findKey r' key).steady fun _ _ glanced storable => storable.glanced glanced).mono
      (fun _ storable => storable) fun _ _ facts => facts.2
  exact searched.keeps.bind (fun position => keeps_store dict key value r' position) m sound storable

/-- Storing in whatever the handle names. -/
theorem keeps_put (dict key value : Handle) :
    Keeps building (fun _ => True) (fun h => h.Anchored dict ∧ h.Element key ∧ h.Element value) (set dict key value)
      fun _ _ => True := by
  intro m sound ⟨table, key_live, value_live⟩
  cases read : m.heap.dictRecord dict with
  | error e =>
    rw [set, run_bind_error (by rw [run_inspect, read])]
    exact ⟨Kept.refl sound, fun _ same => by cases same⟩
  | ok r =>
    have storable : Storable dict key value r m.heap := ⟨dictRecord_eq_ok_iff.1 read, table, key_live, value_live⟩
    exact (((keeps_set dict key value r).widen fun _ _ => trivial).mono (fun _ start => start) fun _ _ _ => trivial) m sound
      storable

end DictObject

end ChunkHeap

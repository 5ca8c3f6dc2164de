import ChunkHeap.Proofs.Containers.Creation

/-!
# Lists

Every operation on lists keeps a heap sound, whether it succeeds or fails. An
update changes the storage and then the length on record; operations that make a
list or copy elements are sequences of such steps, with an invariant for their
loops: the objects still needed are held.
-/

namespace ChunkHeap
set_option autoImplicit false

open HeapM Heap

namespace Heap

variable {h g : Heap} {x y s : Handle} {p q : Payload} {pin : Option Handle}

/-- A container whose record fits its storages again. -/
theorem Edited.recounted (edited : Edited (· = x) h g) (sound : h.Sound (some x)) (found : h.find? x = some p)
    (written : g.find? x = some q) (stored : s ∈ p.storages) (tag : q.tag = p.tag) (refs : q.refs = p.refs)
    (storages : q.storages = p.storages)
    (lengths : ∀ t ∈ p.storages, ∀ r, h.find? t = some (.seglist r) → r.length = q.count) : g.Sound none := by
  have kind := Payload.tag_of_storages stored
  refine sound.rewritten found edited written ?_ tag kind.1 kind.2 storages (storages ▸ lengths) ?_
  · exact refs ▸ sound.refs x p found
  · intro y loose
    exact (Option.some.inj loose).symm

theorem Edited.held (edited : Edited (· = x) h g) (found : h.find? x = some p) (written : g.find? x = some q)
    (tag : q.tag = p.tag) (wider : p.children ⊆ q.children) (held : h.Held pin y) : g.Held pin y := by
  cases pin with
  | some _ => exact edited.anchored found written tag wider held
  | none =>
    obtain ⟨r, live, other⟩ := held
    by_cases same : y = x
    · subst same
      rw [found] at live
      cases live
      exact ⟨q, written, tag ▸ other⟩
    · exact ⟨r, (edited.outside y same).trans live, other⟩

end Heap

/-! ### Rules for loops -/

namespace HeapM

variable {building : Bool} {S : Handle → Prop} {inv : Heap → Prop}

theorem Keeps.times {op : HeapM Unit} (keeps : Keeps building S inv op fun _ => inv) (n : Nat) :
    Keeps building S inv (times n op) fun _ => inv := by
  induction n with
  | zero => exact keeps_pure () fun _ holds => holds
  | succ n ih => exact keeps.bind fun _ => ih

theorem keeps_forEach {γ : Type} {op : γ → HeapM Unit} {xs : List γ}
    (keeps : ∀ x ∈ xs, Keeps building S inv (op x) fun _ => inv) : Keeps building S inv (forEach op xs) fun _ => inv := by
  induction xs with
  | nil => exact keeps_pure () fun _ holds => holds
  | cons x xs ih =>
    exact (keeps x List.mem_cons_self).bind fun _ => ih fun y member => keeps y (List.mem_cons_of_mem x member)

end HeapM

namespace ListObject

variable {building : Bool} {S : Handle → Prop} {pre : Heap → Prop} {kept : Handle → Prop} {pin : Option Handle}
  {r : ListRecord}

theorem modifyRecord_spec {m : Machine} {list : Handle} (f : ListRecord → ListRecord)
    (found : m.heap.find? list = some (.list r)) :
    ∃ m', (modifyRecord list f).run m = (.ok (), m') ∧ Edited (· = list) m.heap m'.heap ∧
      m'.heap.find? list = some (.list (f r)) := by
  refine ⟨m.put list (.list (f r)), ?_, edited_setPayload found rfl rfl, find?_setPayload_self found _⟩
  rw [modifyRecord, run_bind_ok (run_inspect_ok (listRecord_eq_ok_iff.2 found)), run_modify]
  rfl

theorem keeps_record (list : Handle) :
    Keeps building S pre (inspect fun h => h.listRecord list) fun r h => h.find? list = some (.list r) ∧ pre h :=
  keeps_inspect fun _ _ start read => ⟨listRecord_eq_ok_iff.1 read, start⟩

theorem keeps_position (r : ListRecord) (index : Int) : Keeps building S pre (position r index) fun _ => pre := by
  unfold position
  cases Position.element? index r.length with
  | some i => exact keeps_pure i fun _ start => start
  | none => exact keeps_throw _

/-- An update of the storage, and then of the length. -/
theorem keeps_resize (list : Handle) (resize : Nat → Nat) (pre : Heap → Prop) {op : HeapM Unit}
    (updates : ∀ m, m.heap.Sound none → pre m.heap → m.heap.Held pin r.storage →
      Updated pin r.storage resize m.heap (op.run m)) :
    Keeps building (fun _ => True)
      (fun h => h.find? list = some (.list r) ∧ pre h ∧ h.Held pin list ∧ ∀ y, kept y → h.Held pin y)
      (do op; modifyRecord list fun r => { r with length := resize r.length }) fun _ h => ∀ y, kept y → h.Held pin y := by
  intro m sound ⟨found, start, held, others⟩
  have ok := sound.accounted
  have stored : r.storage ∈ (Payload.list r).storages := List.mem_singleton_self _
  obtain ⟨l, list_found, length⟩ := sound.stores list _ found _ stored
  have storage := held.child found (Payload.storages_subset_children _ stored) ⟨_, list_found, by simp [Payload.tag]⟩
  rcases (updates m sound start storage).owned sound (.inl rfl) found stored held with
    ⟨e, m', failed, cleared⟩ | ⟨m', done, refilled⟩
  · rw [run_bind_error failed]
    exact ⟨(cleared.upkeep ok).kept (cleared.sound sound) (cleared.confined ok), fun _ same => by cases same⟩
  · obtain ⟨m'', wrote, edited, written⟩ :=
      modifyRecord_spec (fun r => { r with length := resize r.length }) refilled.container
    rw [run_bind_ok done, wrote]
    refine ⟨(refilled.toUpkeep.trans edited.toUpkeep).kept ?_ (confined_everywhere _ _), fun _ _ y member => ?_⟩
    · refine edited.recounted refilled.sound refilled.container written stored rfl rfl rfl fun t member l' there => ?_
      obtain rfl := List.mem_singleton.1 member
      obtain ⟨l'', there', length'⟩ := refilled.storage l list_found
      rw [there] at there'
      cases there'
      rw [length', length (by simp)]
      rfl
    · exact edited.held refilled.container written rfl (List.Subset.refl _) (refilled.held y (others y member))

theorem keeps_append (kept : Handle → Prop) (list x : Handle) :
    Keeps building (fun _ => True) (fun h => h.Element x ∧ h.Anchored list ∧ ∀ y, kept y → h.Anchored y) (append list x)
      fun _ h => ∀ y, kept y → h.Anchored y :=
  (keeps_record list).bind fun _ =>
    keeps_resize list (· + 1) (fun h => h.Element x) fun _ sound element held =>
      SegList.append_updated sound.orderly held.1 element

theorem keeps_insert (kept : Handle → Prop) (list : Handle) (index : Int) (x : Handle) :
    Keeps building (fun _ => True) (fun h => h.Element x ∧ h.Anchored list ∧ ∀ y, kept y → h.Anchored y)
      (insert list index x) fun _ h => ∀ y, kept y → h.Anchored y :=
  (keeps_record list).bind fun _ =>
    keeps_resize list (· + 1) (fun h => h.Element x) fun _ sound element held =>
      SegList.insert_updated _ sound.orderly held.1 element

/-- Updates that do not collect need live objects only. -/
theorem keeps_shrink (list : Handle) (resize : Nat → Nat) {op : HeapM Unit}
    (updates : ∀ m, m.heap.Sound none → Updated none r.storage resize m.heap (op.run m)) :
    Keeps building (fun _ => True) (fun h => h.find? list = some (.list r) ∧ ∀ y, kept y → h.Element y)
      (do op; modifyRecord list fun r => { r with length := resize r.length }) fun _ h => ∀ y, kept y → h.Element y := by
  refine (keeps_resize list resize (fun _ => True) fun m sound _ _ => updates m sound).mono ?_ fun _ _ elements => elements
  exact fun h ⟨found, elements⟩ => ⟨found, trivial, ⟨_, found, by simp [Payload.tag]⟩, elements⟩

theorem keeps_removeAt (kept : Handle → Prop) (list : Handle) (index : Int) :
    Keeps building (fun _ => True) (fun h => ∀ y, kept y → h.Element y) (removeAt list index)
      fun _ h => ∀ y, kept y → h.Element y :=
  (keeps_record list).bind fun r => (keeps_position r index).bind fun i =>
    keeps_shrink list (· - 1) fun _ sound => SegList.remove_updated i sound.orderly

theorem keeps_clear (kept : Handle → Prop) (list : Handle) :
    Keeps building (fun _ => True) (fun h => ∀ y, kept y → h.Element y) (clear list) fun _ h => ∀ y, kept y → h.Element y :=
  (keeps_record list).bind fun _ => keeps_shrink list (fun _ => 0) fun _ sound => SegList.clear_updated sound.orderly

theorem keeps_remove (list value : Handle) :
    Keeps building (fun _ => True) (fun _ => True) (remove list value) fun _ _ => True := by
  refine (reads_indexOf list value).keeps.bind fun i => ?_
  exact (keeps_removeAt (fun _ => False) list i).mono (fun _ _ _ none => none.elim) fun _ _ _ => trivial

theorem keeps_set (kept : Handle → Prop) (list : Handle) (index : Int) {x : Handle} (needed : kept x) :
    Keeps building (fun _ => True) (fun h => ∀ y, kept y → h.Element y) (set list index x)
      fun _ h => ∀ y, kept y → h.Element y := by
  refine (keeps_record list).bind fun r => (keeps_position r index).bind fun i => ?_
  intro m sound ⟨_, elements⟩
  have updated := SegList.set_updated (s := r.storage) i sound.orderly (elements x needed)
  exact ⟨updated.kept sound (fun _ _ _ _ _ => rfl) trivial, fun _ done y member => updated.held sound.orderly done (elements y member)⟩

/-! ### Operations that make a list -/

theorem keeps_new (kept : Handle → Prop) :
    Keeps building S (fun h => ∀ y, kept y → h.Anchored y) new fun x h =>
      (∃ s, h.find? x = some (.list ⟨0, s⟩) ∧ ∀ y ∈ [x, s], ¬ h.Rooted y) ∧ ∀ y, kept y → h.Anchored y := by
  have storage : Keeps building S (fun h => ∀ y, kept y → h.Anchored y) SegList.new
      fun s h => h.Blank s ∧ ∀ y, kept y → h.Anchored y :=
    (keeps_allocateBlank kept []).mono (fun h anchored => ⟨by simp, anchored⟩)
      fun s h ⟨blank, _, anchored⟩ => ⟨blank s (by simp), anchored⟩
  refine storage.bind fun s => ?_
  refine (keeps_allocateContainer (.list { length := 0, storage := s }) (by simp [Payload.storages]) rfl rfl
    (by simp [Payload.tag]) (by simp [Payload.tag])).mono (fun h ⟨blank, anchored⟩ => ⟨?_, anchored⟩)
      fun x h ⟨found, unrooted, anchored⟩ => ⟨⟨s, found, unrooted⟩, anchored⟩
  intro t member
  rwa [List.mem_singleton.1 member]

/-- Copying to a list that is within reach. -/
theorem keeps_copyEvery (storage target : Handle) (step count i : Nat) :
    Keeps building (fun _ => True) (fun h => h.Anchored target) (copyEvery storage target step count i)
      fun _ h => h.Anchored target := by
  induction count generalizing i with
  | zero => exact keeps_pure () fun _ anchored => anchored
  | succ count ih =>
    have read : Reads (fun h => h.Anchored target) (SegList.get storage i) fun x h => h.Element x ∧ h.Anchored target :=
      ((SegList.reads_get storage i).steady fun _ _ glanced anchored => glanced.anchored anchored).mono
        (fun _ anchored => anchored) fun _ _ facts => ⟨facts.1.1, facts.2⟩
    have added : ∀ x, Keeps building (fun _ => True) (fun h => h.Element x ∧ h.Anchored target) (append target x)
        fun _ h => h.Anchored target := fun x =>
      (keeps_append (· = target) target x).mono
        (fun h ⟨element, anchored⟩ => ⟨element, anchored, fun y same => same ▸ anchored⟩) fun _ _ facts => facts target rfl
    exact read.keeps.bind fun x => (added x).bind fun _ => ih (i + step)

/-- A list made in a construction that fills it. -/
theorem keeps_filled {fill : Handle → HeapM Unit}
    (fills : ∀ x, Keeps true (fun _ => True) (fun h => h.Anchored x) (fill x) fun _ h => h.Anchored x) :
    Keeps building (fun _ => True) (fun _ => True)
      (guarded do
        let result ← new
        protect result
        fill result
        return result) fun x h => h.Element x := by
  have made : Keeps true (fun _ => True) (fun _ => True) new fun x h => h.Element x :=
    (keeps_new fun _ => False).mono (fun _ _ _ none => none.elim) fun _ _ ⟨⟨_, found, _⟩, _⟩ =>
      ⟨_, found, by simp [Payload.tag]⟩
  have body : Keeps true (fun _ => True) (fun _ => True)
      (do
        let result ← new
        protect result
        fill result
        return result) fun x h => h.Element x := by
    refine made.bind fun x => ?_
    refine (keeps_protect x (fun _ element => element) fun h element => ?_).bind fun _ =>
      (fills x).bind fun _ => keeps_pure x fun _ anchored => anchored.2
    exact ⟨.start (by simp [collectionRoots, RootSet.toList, RootSet.protect]), element⟩
  exact body.guarded (fun _ _ => trivial) fun _ _ _ element => element

theorem keeps_replicate (list : Handle) (count : Int) :
    Keeps building (fun _ => True) (fun _ => True) (replicate list count) fun x h => h.Element x := by
  refine (keeps_record list).bind fun r => ?_
  refine (keeps_filled fun x => ?_).mono (fun _ _ => trivial) fun _ _ element => element
  refine Keeps.times ?_ _
  exact keeps_copyEvery r.storage x 1 r.length 0

/-- Some elements of a storage, as a list of their own. -/
theorem keeps_extract (storage : Handle) (step count i : Nat) :
    Keeps building (fun _ => True) (fun _ => True)
      (guarded do
        let result ← new
        protect result
        copyEvery storage result step count i
        return result) fun x h => h.Element x :=
  keeps_filled fun x => keeps_copyEvery storage x step count i

theorem keeps_slice (list : Handle) (start stop step : Int) :
    Keeps building (fun _ => True) (fun _ => True) (slice list start stop step) fun x h => h.Element x := by
  refine (keeps_record list).bind fun r => ?_
  refine (keeps_inspect fun _ _ _ _ => trivial).bind fun step => ?_
  exact keeps_extract r.storage step _ _

theorem keeps_sliceBy (list slice : Handle) :
    Keeps building (fun _ => True) (fun _ => True) (sliceBy list slice) fun x h => h.Element x := by
  refine (keeps_inspect fun _ _ _ _ => trivial).bind fun length => ?_
  refine (keeps_inspect fun _ _ _ _ => trivial).bind fun bounds => ?_
  exact keeps_slice list bounds.1 bounds.2.1 bounds.2.2

/-! ### Storing into a slice -/

theorem keeps_storeFrom (list : Handle) (i : Nat) (items : List Handle) :
    Keeps building (fun _ => True) (fun h => ∀ y ∈ items, h.Element y) (storeFrom list i items) fun _ _ => True := by
  induction items generalizing i with
  | nil => exact keeps_pure () fun _ _ => trivial
  | cons x items ih =>
    refine (keeps_set (· ∈ x :: items) list i List.mem_cons_self).bind fun _ => ?_
    exact (ih (i + 1)).mono (fun _ elements y member => elements y (List.mem_cons_of_mem x member)) fun _ _ _ => trivial

/-- Protecting the elements keeps what was kept before. -/
theorem keeps_keepOwn (list source : Handle) {items : List Handle} (within : ∀ x ∈ items, kept x) :
    Keeps true S (fun h => ∀ y, kept y → h.Anchored y) (keepOwn list source items) fun _ h => ∀ y, kept y → h.Anchored y := by
  unfold keepOwn
  split
  · refine keeps_forEach fun x member => keeps_protect x (fun h anchored => (anchored x (within x member)).2) ?_
    intro h anchored y needed
    refine (anchored y needed).rerooted fun z root => ?_
    simp only [RootSet.toList, RootSet.protect, List.mem_append] at root ⊢
    exact root.imp_right .inl
  · exact keeps_pure () fun _ anchored => anchored

/-- The list shrinks or grows to its new length, and then takes the elements. They
need not be within reach while it shrinks, since nothing is allocated, and stay
within reach while it grows. -/
theorem keeps_refill (list source : Handle) (items : List Handle) (surplus missing start : Nat)
    (one : surplus = 0 ∨ missing = 0) :
    Keeps true (fun _ => True) (fun h => ∀ y, y = list ∨ y ∈ items → h.Anchored y)
      (do
        keepOwn list source items
        let h ← heap
        times surplus (removeAt list start)
        times missing (insert list start h.constants.none)
        storeFrom list start items) fun _ _ => True := by
  refine (keeps_keepOwn list source fun x member => .inr member).bind fun _ => ?_
  have seen : Keeps true (fun _ => True) (fun h => ∀ y, y = list ∨ y ∈ items → h.Anchored y) heap
      fun h g => ∀ y, (y = list ∨ y ∈ items) ∨ y = h.constants.none → g.Anchored y := by
    intro m sound anchored
    refine ⟨Kept.refl sound, fun h same y needed => ?_⟩
    cases same
    rcases needed with needed | rfl
    · exact anchored y needed
    · have root : m.heap.constants.none ∈ m.heap.collectionRoots [] := by simp [collectionRoots, Constants.toList]
      exact ⟨.start root, sound.roots _ root⟩
  refine seen.bind fun h => ?_
  rcases one with rfl | rfl
  · rw [times, pure_bind]
    refine (Keeps.times ((keeps_insert (fun y => (y = list ∨ y ∈ items) ∨ y = h.constants.none) list start
      h.constants.none).mono (fun _ anchored => ?_) fun _ _ anchored => anchored) missing).bind fun _ => ?_
    · exact ⟨(anchored _ (.inr rfl)).2, anchored list (.inl (.inl rfl)), anchored⟩
    · exact (keeps_storeFrom list start items).mono (fun _ anchored y member => (anchored y (.inl (.inr member))).2)
        fun _ _ _ => trivial
  · refine ((Keeps.times (keeps_removeAt (· ∈ items) list start) surplus).mono
      (fun _ anchored y member => (anchored y (.inl (.inr member))).2) fun _ _ elements => elements).bind fun _ => ?_
    rw [times, pure_bind]
    exact keeps_storeFrom list start items

theorem keeps_storeSlice (list : Handle) (start stop : Int) (source : Handle) :
    Keeps building (fun _ => True) (fun h => h.Anchored list ∧ h.Anchored source) (storeSlice list start stop source)
      fun _ _ => True := by
  refine (keeps_record list).bind fun r => ?_
  have supplied : Keeps building (fun _ => True)
      (fun h => h.find? list = some (.list r) ∧ h.Anchored list ∧ h.Anchored source) (inspect fun h => h.sequenceItems source)
      fun items h => ∀ y, y = list ∨ y ∈ items → h.Anchored y := by
    intro m sound ⟨_, target, supplier⟩
    refine ⟨Kept.refl sound, fun items read y needed => ?_⟩
    rcases needed with rfl | member
    · exact target
    · have found := sound.found_sequenceItems read y member
      exact ⟨found.2 supplier.1, found.1⟩
  refine supplied.bind fun items => ?_
  refine (keeps_refill list source items _ _ _ ?_).guarded (fun h anchored y needed => ?_) fun _ _ _ _ => trivial
  · omega
  · exact (anchored y needed).rerooted (List.Subset.refl _)

/-! ### What lasts, and operations in parts -/

variable {m : Machine} {l x : Handle}

/-- While a list grows, what is within reach stays within reach. -/
theorem append_anchored (sound : m.heap.Sound none) (anchored : m.heap.Anchored l) (element : m.heap.Element x) :
    ∀ a, ((append l x).run m).1 = .ok a → ∀ y, m.heap.Anchored y → ((append l x).run m).2.heap.Anchored y := by
  have keeps : Keeps false _ _ (append l x) _ := keeps_append m.heap.Anchored l x
  exact (keeps m sound ⟨element, anchored, fun _ anchored => anchored⟩).2

theorem insert_anchored (sound : m.heap.Sound none) (anchored : m.heap.Anchored l) (element : m.heap.Element x) (index : Int) :
    ∀ a, ((insert l index x).run m).1 = .ok a → ∀ y, m.heap.Anchored y → ((insert l index x).run m).2.heap.Anchored y := by
  have keeps : Keeps false _ _ (insert l index x) _ := keeps_insert m.heap.Anchored l index x
  exact (keeps m sound ⟨element, anchored, fun _ anchored => anchored⟩).2

/-- While a list shrinks, and while its elements are replaced, nothing is collected. -/
theorem removeAt_elements (l : Handle) (index : Int) (sound : m.heap.Sound none) :
    ∀ a, ((removeAt l index).run m).1 = .ok a → ∀ y, m.heap.Element y → ((removeAt l index).run m).2.heap.Element y := by
  have keeps : Keeps false _ _ (removeAt l index) _ := keeps_removeAt m.heap.Element l index
  exact (keeps m sound fun _ element => element).2

theorem set_elements (l : Handle) (index : Int) (sound : m.heap.Sound none) (element : m.heap.Element x) :
    ∀ a, ((set l index x).run m).1 = .ok a → ∀ y, m.heap.Element y → ((set l index x).run m).2.heap.Element y := by
  have keeps : Keeps false _ _ (set l index x) _ := keeps_set m.heap.Element l index element
  exact (keeps m sound fun _ element => element).2

theorem clear_elements (l : Handle) (sound : m.heap.Sound none) :
    ∀ a, ((clear l).run m).1 = .ok a → ∀ y, m.heap.Element y → ((clear l).run m).2.heap.Element y := by
  have keeps : Keeps false _ _ (clear l) _ := keeps_clear m.heap.Element l
  exact (keeps m sound fun _ element => element).2

/-- A new list of the references of a segmented list at the `count` positions `i`, `i + step`, … -/
def extract (storage : Handle) (step count i : Nat) : HeapM Handle :=
  guarded do
    let result ← new
    protect result
    copyEvery storage result step count i
    return result

theorem slice_eq (list : Handle) (start stop step : Int) :
    slice list start stop step = (do
      let r ← inspect fun h => h.listRecord list
      let n ← inspect fun _ => Position.checkStep step
      let first := Position.clamp start 0 r.length
      extract r.storage n (Position.stepCount first (Position.clamp stop 0 r.length) n) first) :=
  rfl

/-- Remove `surplus` elements at a position or insert `missing` ones, and store elements from there on. -/
def refill (list source : Handle) (items : List Handle) (surplus missing start : Nat) : HeapM Unit :=
  guarded do
    keepOwn list source items
    let h ← heap
    times surplus (removeAt list start)
    times missing (insert list start h.constants.none)
    storeFrom list start items

theorem storeSlice_eq (list : Handle) (start stop : Int) (source : Handle) :
    storeSlice list start stop source = (do
      let r ← inspect fun h => h.listRecord list
      let items ← inspect fun h => h.sequenceItems source
      let first := Position.clamp start 0 r.length
      let target := r.length - (Position.clamp stop first r.length - first) + items.length
      refill list source items (r.length - target) (target - r.length) first) :=
  rfl

end ListObject

end ChunkHeap

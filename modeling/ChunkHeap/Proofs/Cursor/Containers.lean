import ChunkHeap.Proofs.Containers.Tables
import ChunkHeap.Proofs.Cursor.Blindness

/-!
# Containers do not depend on cursors

`HeapM.Steady` says of an operation that it keeps a heap in order and does the same
on machines that differ in cursors only. In a heap in order every cursor can be
trusted, so the operations on segmented lists are steady, and those on lists and
tables follow from them step by step. A storage need not be as long as its
container has on record, so segmented lists may also be changed behind the back of
the container they belong to.
-/

namespace ChunkHeap
set_option autoImplicit false

open HeapM Heap

theorem Heap.Shaped.trusted {h : Heap} (shaped : h.Shaped) (list : Handle) : h.Trusted list := by
  intro r n seg found cursor
  obtain ⟨c, chained⟩ := shaped.chains list r found
  exact chained.trusted found r n seg found cursor

/-! ### A heap with its cursors erased -/

namespace Heap

variable {h : Heap} {x : Handle} {c : Chain} {r : SegListRecord}

theorem Element.still (element : h.Element x) : h.still.Element x := by
  obtain ⟨p, found, tag⟩ := element
  exact ⟨p.still, by rw [find?_still, found]; rfl, by rwa [p.tag_still]⟩

theorem Rooted.still (rooted : h.Rooted x) : h.still.Rooted x := by
  refine reaches_of_children (fun z p _ found => ⟨p.still, ?_, ?_⟩) rooted
  · rw [find?_still, found]
    rfl
  · rw [p.children_still]
    exact List.Subset.refl _

/-- What is found in the erasure was there, up to a cursor. -/
theorem of_find?_still {q : Payload} (found : h.still.find? x = some q) : ∃ p, h.find? x = some p ∧ p.still = q := by
  rw [find?_still] at found
  exact Option.map_eq_some_iff.1 found

theorem Chained.still (chained : h.Chained r c) : h.still.Chained r.still c where
  linked := chained.linked.congr fun s member => by
    obtain ⟨_, found⟩ := chained.linked.segment member
    rw [find?_still, found]
    rfl
  distinct := chained.distinct
  packed := chained.packed
  head := chained.head
  tail := chained.tail
  length := chained.length
  cursor := fun _ _ wrong => by cases wrong

theorem Carries.still (carries : h.Carries x c) : h.still.Carries x c := by
  obtain ⟨r, found, chained⟩ := carries
  exact ⟨r.still, by rw [find?_still, found]; rfl, chained.still⟩

/-- The lists of the erasure have the chains they had. -/
theorem Shaped.of_carries_still (shaped : h.Shaped) (carries : h.still.Carries x c) : h.Carries x c := by
  obtain ⟨r', found', -⟩ := id carries
  obtain ⟨p, found, same⟩ := of_find?_still found'
  cases p with
  | seglist r =>
    obtain ⟨d, chained⟩ := shaped.chains x r found
    have before : h.Carries x d := ⟨r, found, chained⟩
    rwa [carries.unique before.still]
  | _ => cases same

/-- Erasing cursors leaves a heap in order. -/
theorem Orderly.still (orderly : h.Orderly) : h.still.Orderly where
  accounted := by
    have kept := orderly.accounted.adjust (f := fun _ o => o.still) fun _ _ => rfl
    rwa [← Arena.still_eq_adjust] at kept
  headed := by
    intro x o found
    obtain ⟨o', found', rfl⟩ := Option.map_eq_some_iff.1 (h.arena.get?_still x ▸ found)
    obtain ⟨tag, bytes⟩ := orderly.headed x o' found'
    refine ⟨tag.trans o'.payload.tag_still.symm, bytes.trans ?_⟩
    show _ = o'.payload.still.chunkBytes
    cases o'.payload <;> rfl
  refs := by
    intro x q found y member
    obtain ⟨p, found', rfl⟩ := of_find?_still found
    refine (orderly.refs x p found' y ?_).still
    cases p <;> exact member
  chains := by
    intro x r' found
    obtain ⟨p, found', same⟩ := of_find?_still found
    cases p with
    | seglist r =>
      obtain ⟨c, chained⟩ := orderly.chains x r found'
      cases same
      exact ⟨c, chained.still⟩
    | _ => cases same
  disjoint x y c d left right :=
    orderly.disjoint x y c d (orderly.of_carries_still left) (orderly.of_carries_still right)
  covered := by
    intro s r' found
    obtain ⟨p, found', same⟩ := of_find?_still found
    cases p with
    | segment r =>
      obtain ⟨x, c, carries, member⟩ := orderly.covered s r found'
      exact ⟨x, c, carries.still, member⟩
    | _ => cases same
  roots x member := (orderly.roots x member).still

end Heap

/-- Moving cursors within a list leaves a heap in order. -/
theorem Heap.Orderly.looked {h g : Heap} {s : Handle} {c : Chain} (orderly : h.Orderly) (carries : h.Carries s c)
    (changed : Rechained s c h g c) : g.Orderly :=
  orderly.rechained carries changed fun _ member => orderly.item_element carries member

theorem Heap.Orderly.root {h : Heap} {x : Handle} (orderly : h.Orderly) (root : x ∈ h.roots.toList) : h.Element x :=
  orderly.roots x (List.mem_append_left _ (List.mem_append_left _ root))

namespace HeapM

variable {α β : Type} {pre pre' : Heap → Prop} {post post' : α → Heap → Prop} {op : HeapM α} {f : α → HeapM β}
  {last : β → Heap → Prop}

/-- From a heap in order where `pre` holds the operation leaves a heap in order, and
one where `post` holds if it succeeds; and it does not see cursors. -/
structure Steady (pre : Heap → Prop) (op : HeapM α) (post : α → Heap → Prop) : Prop where
  leaves : ∀ m, m.heap.Orderly → pre m.heap →
    (op.run m).2.heap.Orderly ∧ ∀ a, (op.run m).1 = .ok a → post a (op.run m).2.heap
  blind : Blind (fun h => h.Orderly ∧ pre h) op

theorem Steady.mono (steady : Steady pre op post) (before : ∀ h, h.Orderly → pre' h → pre h)
    (after : ∀ a h, post a h → post' a h) : Steady pre' op post' where
  leaves m orderly start := (steady.leaves m orderly (before _ orderly start)).imp_right fun ends a done => after a _ (ends a done)
  blind := steady.blind.mono fun _ ⟨orderly, start⟩ => ⟨orderly, before _ orderly start⟩

theorem Steady.bind (first : Steady pre op post) (next : ∀ a, Steady (post a) (f a) last) : Steady pre (op >>= f) last where
  leaves m orderly start := by
    obtain ⟨orderly', middle⟩ := first.leaves m orderly start
    rw [run_bind]
    rcases outcome : op.run m with ⟨_ | a, m'⟩
    · rw [outcome] at orderly'
      exact ⟨orderly', fun _ same => by cases same⟩
    · rw [outcome] at orderly' middle
      exact (next a).leaves m' orderly' (middle a rfl)
  blind := by
    refine first.blind.bind (fun a h => h.Orderly ∧ post a h) (fun m a m' ⟨orderly, start⟩ ran => ?_) fun a => (next a).blind
    obtain ⟨orderly', ends⟩ := first.leaves m orderly start
    rw [ran] at orderly' ends
    exact ⟨orderly', ends a rfl⟩

theorem steady_pure (a : α) (holds : ∀ h, pre h → post a h) : Steady pre (pure a) post where
  leaves _ orderly start := ⟨orderly, fun _ same => by cases same; exact holds _ start⟩
  blind := blind_pure a

theorem steady_throw (e : Error) : Steady pre (throw e : HeapM α) post where
  leaves _ orderly _ := ⟨orderly, fun _ same => by cases same⟩
  blind := blind_throw e

theorem Steady.map (steady : Steady pre op post) (g : α → β) : Steady pre (g <$> op) fun _ _ => True := by
  rw [map_eq_pure_bind]
  exact steady.bind fun _ => steady_pure _ fun _ _ => trivial

/-- A reading that does not look at cursors. -/
theorem steady_inspect {read : Heap → Except Error α} (same : ∀ h, read h.still = read h)
    (holds : ∀ h a, h.Orderly → pre h → read h = .ok a → post a h) : Steady pre (inspect read) post where
  leaves _ orderly start := ⟨orderly, fun a done => holds _ a orderly start done⟩
  blind := blind_inspect same

/-- The heap taken for something that does not depend on cursors. -/
theorem steady_heap (g : Heap → β) (same : ∀ h, g h.still = g h) {k : β → HeapM α}
    (next : ∀ b, Steady (fun h => pre h ∧ g h = b) (k b) post) : Steady pre (heap >>= fun h => k (g h)) post where
  leaves m orderly start := (next (g m.heap)).leaves m orderly ⟨start, rfl⟩
  blind m m' alike left right := by
    have seen : g m.heap = g m'.heap := alike.reading same
    show Agree ((k (g m.heap)).run m) ((k (g m'.heap)).run m')
    rw [seen]
    exact (next _).blind m m' alike ⟨left.1, left.2, seen⟩ ⟨right.1, right.2, rfl⟩

theorem Steady.times {op : HeapM Unit} (steady : Steady pre op fun _ => pre) (n : Nat) :
    Steady pre (times n op) fun _ => pre := by
  induction n with
  | zero => exact steady_pure () fun _ start => start
  | succ n ih => exact steady.bind fun _ => ih

theorem steady_forEach {γ : Type} {op : γ → HeapM Unit} {xs : List γ} (steady : ∀ x ∈ xs, Steady pre (op x) fun _ => pre) :
    Steady pre (forEach op xs) fun _ => pre := by
  induction xs with
  | nil => exact steady_pure () fun _ start => start
  | cons x xs ih =>
    exact (steady x List.mem_cons_self).bind fun _ => ih fun y member => steady y (List.mem_cons_of_mem x member)

/-! ### Roots and constructions -/

theorem steady_modifyRoots (g : RootSet → RootSet) {done : Unit → Heap → Prop}
    (elements : ∀ h, h.Orderly → pre h → ∀ x ∈ (g h.roots).toList, h.Element x)
    (holds : ∀ h, h.Orderly → pre h → done () { h with roots := g h.roots }) : Steady pre (modifyRoots g) done where
  leaves m orderly start := by
    rw [run_modifyRoots]
    exact ⟨orderly.rerooted (elements _ orderly start), fun _ _ => holds _ orderly start⟩
  blind := blind_modifyRoots g

theorem steady_protect (x : Handle) {done : Unit → Heap → Prop} (element : ∀ h, pre h → h.Element x)
    (holds : ∀ h, h.Orderly → pre h → done () { h with roots := h.roots.protect x }) : Steady pre (protect x) done := by
  refine steady_modifyRoots _ (fun h orderly start y member => ?_) holds
  have cases : y ∈ h.roots.toList ∨ y = x := by
    simpa [RootSet.toList, RootSet.protect, or_assoc] using member
  rcases cases with root | rfl
  · exact orderly.root root
  · exact element h start

theorem subset_protect (roots : RootSet) (x : Handle) : roots.toList ⊆ (roots.protect x).toList := by
  intro z root
  simp only [RootSet.toList, RootSet.protect, List.mem_append] at root ⊢
  exact root.imp_right .inl

/-- What a construction has kept is let go at its end. -/
theorem Steady.guarded {body : HeapM α} (steady : Steady pre body post)
    (enter : ∀ h, pre' h → pre { h with roots := h.roots.enter }) : Steady pre' (guarded body) fun _ _ => True where
  leaves m orderly start := by
    have entered : (m.mapRoots RootSet.enter).heap.Orderly := orderly.rerooted fun x member => orderly.root member
    obtain ⟨orderly', -⟩ := steady.leaves (m.mapRoots RootSet.enter) entered (enter _ start)
    rw [run_guarded]
    refine ⟨orderly'.rerooted fun x member => orderly'.root ?_, fun _ _ => trivial⟩
    simp only [RootSet.toList, RootSet.leave, List.mem_append] at member ⊢
    exact member.imp_right List.mem_of_mem_take
  blind := steady.blind.guarded fun h ⟨orderly, start⟩ =>
    ⟨orderly.rerooted fun x member => orderly.root member, enter h start⟩

/-! ### Making and rewriting objects -/

/-- A new object that owns no segment. What it refers to is pinned while room is made. -/
theorem steady_allocatePinned (p : Payload) (pins : List Handle) (list : ∀ r, p = .seglist r → r = {})
    (segment : p.tag ≠ .segment) (live : ∀ h, pre h → ∀ y ∈ pins ++ p.refs, h.Element y) :
    Steady pre (allocatePinned p pins) fun x h => h.Element x ∧ ∀ y ∈ pins, h.Element y := by
  have whole : p.children = p.refs := by
    cases p with
    | seglist r => rw [list r rfl]; rfl
    | segment r => exact absurd rfl segment
    | _ => rfl
  have same : p.still = p := by
    cases p with
    | seglist r => rw [list r rfl]; rfl
    | _ => rfl
  refine ⟨fun m orderly start => ?_, blind_allocatePinned same pins⟩
  have ok := orderly.accounted
  have elements := live _ start
  rw [← whole] at elements
  obtain ⟨g, swept, ⟨e, m', failed, -, rfl, -⟩ | ⟨x, m', done, entered⟩⟩ := allocatePinned_spec p pins ok
  · rw [failed]
    exact ⟨orderly.swept elements swept, fun _ wrong => by cases wrong⟩
  · have lasts : ∀ y ∈ pins ++ p.children, g.Element y := fun y member =>
      swept.element ok (elements y member) (.start (List.mem_append_right _ member))
    rw [done]
    refine ⟨(orderly.swept elements swept).entered entered (fun y member => ?_) list segment, fun y same => ?_⟩
    · exact lasts y (List.mem_append_right _ (whole ▸ member))
    · cases same
      refine ⟨⟨p, entered.here, segment⟩, fun y member => ?_⟩
      obtain ⟨q, found, tag⟩ := lasts y (List.mem_append_left _ member)
      exact ⟨q, (entered.live found).2, tag⟩

theorem steady_allocate (p : Payload) (list : ∀ r, p = .seglist r → r = {}) (segment : p.tag ≠ .segment)
    (live : ∀ h, pre h → ∀ y ∈ p.refs, h.Element y) : Steady pre (allocate p) fun x h => h.Element x :=
  (steady_allocatePinned p [] list segment live).mono (fun _ _ start => start) fun _ _ facts => facts.1

/-- The record of a container given another length. -/
theorem steady_rewrite {x : Handle} {p : Payload} (q : Payload) {pin : Option Handle} {kept : Handle → Prop} (tag : q.tag = p.tag)
    (bytes : q.chunkBytes = p.chunkBytes) (refs : q.refs = p.refs) (children : p.children ⊆ q.children)
    (list : p.tag ≠ .seglist) (segment : p.tag ≠ .segment) :
    Steady (fun h => h.find? x = some p ∧ ∀ y, kept y → h.Held pin y) (modify fun h => h.setPayload x q)
      fun _ h => ∀ y, kept y → h.Held pin y where
  leaves m orderly start := by
    obtain ⟨found, held⟩ := start
    have edited := edited_setPayload found tag bytes
    have written := find?_setPayload_self found q
    refine ⟨orderly.rewritten found edited written (fun y member => ?_) tag list segment, fun _ _ y needed => ?_⟩
    · exact orderly.refs x p found y (refs ▸ member)
    · exact edited.held found written tag children (held y needed)
  blind _ _ alike _ _ := ⟨rfl, alike.put x rfl⟩

end HeapM

/-! ### Segmented lists -/

namespace SegList

variable {pre : Heap → Prop} {pin : Option Handle} {s x : Handle} {kept : Handle → Prop}

theorem steady_new : Steady pre new fun s h => h.Element s :=
  steady_allocate _ (fun _ same => Payload.seglist.inj same.symm ▸ rfl) (by simp [Payload.tag]) (by simp [Payload.refs])

/-- What an update leaves behind. -/
theorem steady_of_updated {op : HeapM Unit} {resize : Nat → Nat}
    (updates : ∀ m, m.heap.Orderly → pre m.heap → Updated pin s resize m.heap (op.run m))
    (blind : Blind (fun h => h.Orderly ∧ pre h) op) :
    Steady (fun h => pre h ∧ ∀ y, kept y → h.Held pin y) op fun _ h => ∀ y, kept y → h.Held pin y where
  leaves m orderly start := by
    have updated := updates m orderly start.1
    exact ⟨updated.orderly orderly, fun _ done y needed => updated.held orderly done (start.2 y needed)⟩
  blind := blind.mono fun _ ⟨orderly, start⟩ => ⟨orderly, start.1⟩

theorem steady_append (kept : Handle → Prop) (s x : Handle) :
    Steady (fun h => (h.Rooted s ∧ h.Element x) ∧ ∀ y, kept y → h.Anchored y) (append s x)
      fun _ h => ∀ y, kept y → h.Anchored y :=
  steady_of_updated (fun _ orderly start => append_updated orderly start.1 start.2) (blind_append s x)

theorem steady_insert (kept : Handle → Prop) (s x : Handle) (i : Nat) :
    Steady (fun h => (h.Rooted s ∧ h.Element x) ∧ ∀ y, kept y → h.Anchored y) (insert s x i)
      fun _ h => ∀ y, kept y → h.Anchored y :=
  steady_of_updated (fun _ orderly start => insert_updated i orderly start.1 start.2)
    ((blind_insert s x i).mono fun _ facts => ⟨facts.1.toShaped, facts.2.1⟩)

theorem steady_set (kept : Handle → Prop) (s : Handle) (i : Nat) (x : Handle) :
    Steady (fun h => h.Element x ∧ ∀ y, kept y → h.Element y) (set s i x) fun _ h => ∀ y, kept y → h.Element y :=
  steady_of_updated (fun _ orderly element => set_updated i orderly element)
    ((blind_set s i x).mono fun _ facts => facts.1.trusted s)

theorem steady_remove (kept : Handle → Prop) (s : Handle) (i : Nat) :
    Steady (fun h => ∀ y, kept y → h.Element y) (remove s i) fun _ h => ∀ y, kept y → h.Element y :=
  (steady_of_updated (fun _ orderly _ => remove_updated i orderly)
    ((blind_remove s i).mono fun _ facts => facts.1.trusted s)).mono (fun _ _ start => ⟨trivial, start⟩) fun _ _ ends => ends

theorem steady_clear (kept : Handle → Prop) (s : Handle) :
    Steady (fun h => ∀ y, kept y → h.Element y) (clear s) fun _ h => ∀ y, kept y → h.Element y :=
  (steady_of_updated (fun _ orderly _ => clear_updated orderly) (blind_clear s)).mono
    (fun _ _ start => ⟨trivial, start⟩) fun _ _ ends => ends

/-- What an access finds may be stored, and what cursors do not matter to stays true. -/
theorem steady_get (s : Handle) (i : Nat) (stable : ∀ h g, Glanced h g → pre h → pre g) :
    Steady pre (get s i) fun x h => h.Element x ∧ pre h where
  leaves m orderly start := by
    rcases locate_fails_or s i m with ⟨e, failed⟩ | ⟨r, found, inside⟩
    · rw [get, run_bind_error failed]
      exact ⟨orderly, fun _ wrong => by cases wrong⟩
    · obtain ⟨c, chained⟩ := orderly.chains s r found
      have carries : m.heap.Carries s c := ⟨r, found, chained⟩
      obtain ⟨x, m', here, got, changed⟩ := get_spec found chained inside
      rw [got]
      refine ⟨orderly.looked carries changed, fun y same => ?_⟩
      cases same
      have listed := orderly.item_element carries (List.mem_of_getElem? here)
      exact ⟨changed.element carries listed, stable _ _ (changed.glanced carries) start⟩
  blind := (blind_get s i).mono fun _ facts => facts.1.trusted s

end SegList

/-! ### Lists -/

namespace ListObject

variable {pre : Heap → Prop} {pin : Option Handle} {kept : Handle → Prop}

theorem steady_record (list : Handle) :
    Steady pre (inspect fun h => h.listRecord list) fun r h => h.find? list = some (.list r) ∧ pre h :=
  steady_inspect (fun h => h.listRecord_still list) fun _ _ _ start read => ⟨listRecord_eq_ok_iff.1 read, start⟩

theorem steady_position (r : ListRecord) (index : Int) : Steady pre (position r index) fun _ => pre := by
  unfold position
  split
  · exact steady_pure _ fun _ start => start
  · exact steady_throw _

theorem steady_modifyRecord (pin : Option Handle) (list : Handle) {f : ListRecord → ListRecord}
    (same : ∀ r, (f r).storage = r.storage) :
    Steady (fun h => ∀ y, kept y → h.Held pin y) (modifyRecord list f) fun _ h => ∀ y, kept y → h.Held pin y := by
  refine (steady_record list).bind fun r => ?_
  have children : (Payload.list (f r)).children = (Payload.list r).children := by simp [Payload.children, same]
  exact steady_rewrite (.list (f r)) rfl rfl children (by rw [children]; exact List.Subset.refl _) (by simp [Payload.tag])
    (by simp [Payload.tag])

/-- The storage of a list that is within reach. -/
theorem rooted_storage {h : Heap} {list : Handle} {r : ListRecord} (found : h.find? list = some (.list r))
    (rooted : h.Rooted list) : h.Rooted r.storage :=
  reaches_edge rooted found (List.mem_singleton_self _)

theorem steady_append (kept : Handle → Prop) (list x : Handle) :
    Steady (fun h => (h.Rooted list ∧ h.Element x) ∧ ∀ y, kept y → h.Anchored y) (append list x)
      fun _ h => ∀ y, kept y → h.Anchored y := by
  refine (steady_record list).bind fun r => ?_
  refine Steady.bind ?_ fun _ => steady_modifyRecord (some x) list fun _ => rfl
  refine (SegList.steady_append kept r.storage x).mono ?_ fun _ _ ends => ends
  exact fun _ _ ⟨found, ⟨rooted, element⟩, held⟩ => ⟨⟨rooted_storage found rooted, element⟩, held⟩

theorem steady_insert (kept : Handle → Prop) (list : Handle) (index : Int) (x : Handle) :
    Steady (fun h => (h.Rooted list ∧ h.Element x) ∧ ∀ y, kept y → h.Anchored y) (insert list index x)
      fun _ h => ∀ y, kept y → h.Anchored y := by
  refine (steady_record list).bind fun r => ?_
  refine Steady.bind ?_ fun _ => steady_modifyRecord (some x) list fun _ => rfl
  refine (SegList.steady_insert kept r.storage x _).mono ?_ fun _ _ ends => ends
  exact fun _ _ ⟨found, ⟨rooted, element⟩, held⟩ => ⟨⟨rooted_storage found rooted, element⟩, held⟩

theorem steady_get (list : Handle) (index : Int) : Steady pre (get list index) fun _ _ => True := by
  refine (steady_record list).bind fun r => (steady_position r index).bind fun i => ?_
  refine (SegList.steady_get r.storage i fun _ _ _ _ => trivial).mono (fun _ _ _ => trivial) fun _ _ _ => trivial

theorem steady_set (kept : Handle → Prop) (list : Handle) (index : Int) (x : Handle) :
    Steady (fun h => h.Element x ∧ ∀ y, kept y → h.Element y) (set list index x) fun _ h => ∀ y, kept y → h.Element y := by
  refine (steady_record list).bind fun r => (steady_position r index).bind fun i => ?_
  exact (SegList.steady_set kept r.storage i x).mono (fun _ _ facts => facts.2) fun _ _ ends => ends

theorem steady_removeAt (kept : Handle → Prop) (list : Handle) (index : Int) :
    Steady (fun h => ∀ y, kept y → h.Element y) (removeAt list index) fun _ h => ∀ y, kept y → h.Element y := by
  refine (steady_record list).bind fun r => (steady_position r index).bind fun i => ?_
  refine Steady.bind ?_ fun _ => steady_modifyRecord none list fun _ => rfl
  exact (SegList.steady_remove kept r.storage i).mono (fun _ _ facts => facts.2) fun _ _ ends => ends

theorem steady_findFrom (storage value : Handle) (count i : Nat) :
    Steady pre (findFrom storage value count i) fun _ _ => True := by
  induction count generalizing pre i with
  | zero => exact steady_throw _
  | succ count ih =>
    refine ((SegList.steady_get storage i fun _ _ _ _ => trivial).mono (fun _ _ _ => trivial) fun _ _ facts => facts).bind
      fun x => ?_
    refine (steady_inspect (fun h => h.compare_still x value) fun _ _ _ _ _ => trivial).bind fun outcome => ?_
    split
    · exact steady_pure i fun _ _ => trivial
    · exact ih (i + 1)

theorem steady_indexOf (list value : Handle) : Steady pre (indexOf list value) fun _ _ => True :=
  (steady_record list).bind fun r => steady_findFrom r.storage value r.length 0

theorem steady_remove (list value : Handle) : Steady pre (remove list value) fun _ _ => True := by
  refine (steady_indexOf list value).bind fun i => ?_
  exact (steady_removeAt (fun _ => False) list i).mono (fun _ _ _ _ none => none.elim) fun _ _ _ => trivial

theorem steady_clear (list : Handle) : Steady pre (clear list) fun _ _ => True := by
  refine (steady_record list).bind fun r => ?_
  have told : Steady (fun h => ∀ y, False → h.Element y) (modifyRecord list fun r => { r with length := 0 })
      fun _ h => ∀ y, False → h.Element y := steady_modifyRecord none list fun _ => rfl
  refine ((SegList.steady_clear (fun _ => False) r.storage).mono (fun _ _ _ _ none => none.elim) fun _ _ ends => ends).bind
    fun _ => told.mono (fun _ _ held => held) fun _ _ _ => trivial

theorem steady_new : Steady pre new fun x h => h.Element x := by
  refine SegList.steady_new.bind fun s => ?_
  refine steady_allocate _ (fun _ same => by cases same) (by simp [Payload.tag]) fun h element y member => ?_
  rwa [List.mem_singleton.1 member]

/-- Copying to a list that is within reach, from wherever. -/
theorem steady_copyEvery (storage target : Handle) (step count i : Nat) :
    Steady (fun h => h.Anchored target) (copyEvery storage target step count i) fun _ h => h.Anchored target := by
  induction count generalizing i with
  | zero => exact steady_pure () fun _ anchored => anchored
  | succ count ih =>
    refine (SegList.steady_get storage i fun _ _ glanced anchored => glanced.anchored anchored).bind fun x => ?_
    refine Steady.bind ((steady_append (· = target) target x).mono ?_ fun _ _ ends => ends target rfl) fun _ => ih (i + step)
    exact fun h _ ⟨element, anchored⟩ => ⟨⟨anchored.1, element⟩, fun y same => same ▸ anchored⟩

/-- A list made in a construction that fills it. -/
theorem steady_filled {fill : Handle → HeapM Unit}
    (fills : ∀ x, Steady (fun h => h.Anchored x) (fill x) fun _ h => h.Anchored x) :
    Steady pre
      (guarded do
        let result ← new
        protect result
        fill result
        return result) fun _ _ => True := by
  have body : Steady (fun _ => True)
      (do
        let result ← new
        protect result
        fill result
        return result) fun _ _ => True := by
    refine steady_new.bind fun x => ?_
    refine (steady_protect x (fun _ element => element) fun h _ element => ?_).bind fun _ =>
      (fills x).bind fun _ => steady_pure x fun _ _ => trivial
    exact ⟨.start (by simp [collectionRoots, RootSet.toList, RootSet.protect]), element⟩
  exact body.guarded fun _ _ => trivial

theorem steady_replicate (list : Handle) (count : Int) : Steady pre (replicate list count) fun _ _ => True :=
  (steady_record list).bind fun r => steady_filled fun x => (steady_copyEvery r.storage x 1 r.length 0).times _

theorem steady_extract (storage : Handle) (step count i : Nat) : Steady pre (extract storage step count i) fun _ _ => True :=
  steady_filled fun x => steady_copyEvery storage x step count i

theorem steady_slice (list : Handle) (start stop step : Int) : Steady pre (slice list start stop step) fun _ _ => True := by
  rw [slice_eq]
  refine (steady_record list).bind fun r => ?_
  refine (steady_inspect (fun _ => rfl) fun _ _ _ _ _ => trivial).bind fun n => ?_
  exact steady_extract r.storage n _ _

theorem steady_sliceBy (list slice : Handle) : Steady pre (sliceBy list slice) fun _ _ => True := by
  refine (steady_inspect (fun h => h.listLength_still list) fun _ _ _ _ _ => trivial).bind fun length => ?_
  refine (steady_inspect (fun h => h.sliceIndices_still slice length) fun _ _ _ _ _ => trivial).bind fun bounds => ?_
  exact steady_slice list bounds.1 bounds.2.1 bounds.2.2

theorem steady_storeFrom (list : Handle) (i : Nat) (items : List Handle) :
    Steady (fun h => ∀ y ∈ items, h.Element y) (storeFrom list i items) fun _ _ => True := by
  induction items generalizing i with
  | nil => exact steady_pure () fun _ _ => trivial
  | cons x items ih =>
    refine Steady.bind ((steady_set (· ∈ items) list i x).mono ?_ fun _ _ ends => ends) fun _ => ih (i + 1)
    exact fun h _ elements =>
      ⟨elements x List.mem_cons_self, fun y member => elements y (List.mem_cons_of_mem x member)⟩

theorem steady_keepOwn (list source : Handle) {items : List Handle} (within : ∀ x ∈ items, kept x) :
    Steady (fun h => ∀ y, kept y → h.Anchored y) (keepOwn list source items) fun _ h => ∀ y, kept y → h.Anchored y := by
  unfold keepOwn
  split
  · refine steady_forEach fun x member => steady_protect x (fun h anchored => (anchored x (within x member)).2) ?_
    intro h _ anchored y needed
    exact (anchored y needed).rerooted (subset_protect h.roots x)
  · exact steady_pure () fun _ anchored => anchored

/-- The elements need not be within reach while the list shrinks, since nothing is
allocated then, and stay within reach while it grows. -/
theorem steady_refill (list source : Handle) (items : List Handle) (surplus missing start : Nat)
    (one : surplus = 0 ∨ missing = 0) :
    Steady (fun h => ∀ y, y = list ∨ y ∈ items → h.Anchored y) (refill list source items surplus missing start)
      fun _ _ => True := by
  have body : Steady (fun h => ∀ y, y = list ∨ y ∈ items → h.Anchored y)
      (do
        keepOwn list source items
        let h ← heap
        times surplus (removeAt list start)
        times missing (insert list start h.constants.none)
        storeFrom list start items) fun _ _ => True := by
    refine (steady_keepOwn list source fun x member => .inr member).bind fun _ => ?_
    refine steady_heap (k := fun c => do
      times surplus (removeAt list start)
      times missing (insert list start c)
      storeFrom list start items) (fun h => h.constants.none) (fun _ => rfl) fun none => ?_
    have rooted : ∀ h : Heap, h.Orderly → (∀ y, y = list ∨ y ∈ items → h.Anchored y) ∧ h.constants.none = none →
        ∀ y, (y = list ∨ y ∈ items) ∨ y = none → h.Anchored y := by
      rintro h orderly ⟨anchored, rfl⟩ y (needed | rfl)
      · exact anchored y needed
      · have root : h.constants.none ∈ h.collectionRoots [] := by simp [collectionRoots, Constants.toList]
        exact ⟨.start root, orderly.roots _ root⟩
    rcases one with rfl | rfl
    · rw [times, pure_bind]
      have grows : Steady (fun h => ∀ y, (y = list ∨ y ∈ items) ∨ y = none → h.Anchored y) (insert list start none)
          fun _ h => ∀ y, (y = list ∨ y ∈ items) ∨ y = none → h.Anchored y :=
        (steady_insert _ list start none).mono
          (fun _ _ anchored => ⟨⟨(anchored list (.inl (.inl rfl))).1, (anchored none (.inr rfl)).2⟩, anchored⟩) fun _ _ ends => ends
      refine ((grows.times missing).mono rooted fun _ _ ends => ends).bind fun _ => ?_
      exact (steady_storeFrom list start items).mono (fun _ _ anchored y member => (anchored y (.inl (.inr member))).2)
        fun _ _ _ => trivial
    · refine (((steady_removeAt (· ∈ items) list start).times surplus).mono (fun _ _ facts y member =>
        (facts.1 y (.inr member)).2) fun _ _ ends => ends).bind fun _ => ?_
      rw [times, pure_bind]
      exact steady_storeFrom list start items
  exact body.guarded fun h anchored y needed => (anchored y needed).rerooted (List.Subset.refl _)

theorem steady_storeSlice (list : Handle) (start stop : Int) (source : Handle) :
    Steady (fun h => h.Rooted list ∧ h.Rooted source) (storeSlice list start stop source) fun _ _ => True := by
  rw [storeSlice_eq]
  refine (steady_record list).bind fun r => ?_
  have supplied : Steady (fun h => h.find? list = some (.list r) ∧ h.Rooted list ∧ h.Rooted source)
      (inspect fun h => h.sequenceItems source) fun items h => ∀ y, y = list ∨ y ∈ items → h.Anchored y := by
    refine steady_inspect (fun h => h.sequenceItems_still source) ?_
    rintro h items orderly ⟨found, target, supplier⟩ read y (rfl | member)
    · exact ⟨target, ⟨_, found, by simp [Payload.tag]⟩⟩
    · have item := orderly.found_sequenceItems read y member
      exact ⟨item.2 supplier, item.1⟩
  refine supplied.bind fun items => steady_refill list source items _ _ _ ?_
  omega

end ListObject

/-! ### Tables -/

/-- An operation and a handler of its errors. -/
theorem HeapM.Steady.recover {α : Type} {pre : Heap → Prop} {post : α → Heap → Prop} {op : HeapM α} {handler : Error → HeapM α}
    (first : Steady pre op post) (next : ∀ e, Steady (fun _ => True) (handler e) post) : Steady pre (recover op handler) post where
  leaves m orderly start := by
    obtain ⟨orderly', ends⟩ := first.leaves m orderly start
    rw [run_recover]
    rcases outcome : op.run m with ⟨e | a, m'⟩
    · rw [outcome] at orderly'
      exact (next e).leaves m' orderly' trivial
    · rw [outcome] at orderly' ends
      exact ⟨orderly', ends⟩
  blind := by
    refine first.blind.recover (fun m e m' ⟨orderly, start⟩ ran => ?_) fun e => (next e).blind
    have orderly' := (first.leaves m orderly start).1
    rw [ran] at orderly'
    exact ⟨orderly', trivial⟩

namespace DictObject

variable {pre : Heap → Prop} {kept : Handle → Prop}

theorem steady_record (dict : Handle) :
    Steady pre (inspect fun h => h.dictRecord dict) fun r h => h.find? dict = some (.dict r) ∧ pre h :=
  steady_inspect (fun h => h.dictRecord_still dict) fun _ _ _ start read => ⟨dictRecord_eq_ok_iff.1 read, start⟩

theorem steady_modifyRecord (dict : Handle) {f : DictRecord → DictRecord}
    (same : ∀ r, (f r).keys = r.keys ∧ (f r).vals = r.vals) : Steady pre (modifyRecord dict f) fun _ _ => True := by
  refine (steady_record dict).bind fun r => ?_
  have children : (Payload.dict (f r)).children = (Payload.dict r).children := by simp [Payload.children, same]
  have told : Steady (fun h => h.find? dict = some (.dict r) ∧ ∀ y, False → h.Held none y)
      (modify fun h => h.setPayload dict (.dict (f r))) fun _ h => ∀ y, False → h.Held none y :=
    steady_rewrite (.dict (f r)) rfl rfl children (by rw [children]; exact List.Subset.refl _) (by simp [Payload.tag])
      (by simp [Payload.tag])
  exact told.mono (fun _ _ facts => ⟨facts.1, fun _ none => none.elim⟩) fun _ _ _ => trivial

theorem steady_findFrom (keys : Handle) {test : Heap → Handle → Except Error Bool}
    (blind : ∀ h x, test h.still x = test h x) (stable : ∀ h g, Glanced h g → pre h → pre g) (count i : Nat) :
    Steady pre (findFrom keys test count i) fun _ => pre := by
  induction count generalizing i with
  | zero => exact steady_pure none fun _ start => start
  | succ count ih =>
    refine (SegList.steady_get keys i stable).bind fun key => ?_
    refine (steady_inspect (fun h => blind h key) fun _ _ _ facts _ => facts.2).bind fun passed => ?_
    split
    · exact steady_pure _ fun _ start => start
    · exact ih (i + 1)

theorem steady_findKey (r : DictRecord) (key : Handle) (stable : ∀ h g, Glanced h g → pre h → pre g) :
    Steady pre (findKey r key) fun _ => pre :=
  steady_findFrom r.keys (fun h x => by rw [h.compare_still]) stable r.length 0

theorem steady_valueAt (r : DictRecord) (position : Option Nat) : Steady pre (valueAt r position) fun _ _ => True := by
  cases position with
  | none => exact steady_pure none fun _ _ => trivial
  | some i => exact ((SegList.steady_get r.vals i fun _ _ _ _ => trivial).map some).mono (fun _ _ _ => trivial) fun _ _ _ => trivial

/-- A lookup in a table, by whatever test. -/
theorem steady_lookupBy (dict : Handle) {find : DictRecord → HeapM (Option Nat)}
    (finds : ∀ r, Steady (fun _ => True) (find r) fun _ _ => True) :
    Steady pre (do
      let r ← inspect fun h => h.dictRecord dict
      let found ← find r
      valueAt r found) fun _ _ => True :=
  (steady_record dict).bind fun r =>
    ((finds r).mono (fun _ _ _ => trivial) fun _ _ _ => trivial).bind fun found => steady_valueAt r found

theorem steady_lookup (dict key : Handle) : Steady pre (lookup dict key) fun _ _ => True :=
  steady_lookupBy dict fun r => steady_findKey r key fun _ _ _ _ => trivial

theorem steady_lookupText (dict : Handle) (text : String) : Steady pre (lookupText dict text) fun _ _ => True :=
  steady_lookupBy dict fun r => steady_findFrom r.keys (fun h x => h.strEquals_still x text) (fun _ _ _ _ => trivial) r.length 0

theorem steady_get (dict key : Handle) : Steady pre (get dict key) fun _ _ => True := by
  refine (steady_lookup dict key).bind fun found => ?_
  split
  · exact steady_pure _ fun _ _ => trivial
  · exact steady_throw _

theorem steady_entry (dict : Handle) (index : Nat) : Steady pre (entry dict index) fun _ _ => True := by
  refine (steady_record dict).bind fun r => ?_
  split
  · refine (SegList.steady_get r.keys index fun _ _ _ _ => trivial).mono (fun _ _ _ => trivial) (fun _ _ facts => facts)
      |>.bind fun key => ?_
    refine (SegList.steady_get r.vals index fun _ _ _ _ => trivial).mono (fun _ _ _ => trivial) (fun _ _ facts => facts)
      |>.bind fun value => ?_
    exact steady_pure _ fun _ _ => trivial
  · exact steady_throw _

theorem steady_erase (dict key : Handle) : Steady pre (erase dict key) fun _ _ => True := by
  refine (steady_record dict).bind fun r => ?_
  refine ((steady_findKey r key fun _ _ _ _ => trivial).mono (fun _ _ _ => trivial) fun _ _ facts => facts).bind
    fun position => ?_
  have removes : ∀ (s : Handle) (i : Nat), Steady (fun _ => True) (SegList.remove s i) fun _ _ => True := fun s i =>
    (SegList.steady_remove (fun _ => False) s i).mono (fun _ _ _ _ none => none.elim) fun _ _ _ => trivial
  split
  · rename_i i
    exact (removes r.keys i).bind fun _ => (removes r.vals i).bind fun _ => steady_modifyRecord dict fun _ => ⟨rfl, rfl⟩
  · exact steady_throw _

theorem steady_clear (dict : Handle) : Steady pre (clear dict) fun _ _ => True := by
  refine (steady_record dict).bind fun r => ?_
  have clears : ∀ s : Handle, ∀ {pre : Heap → Prop}, Steady pre (SegList.clear s) fun _ _ => True := fun s =>
    (SegList.steady_clear (fun _ => False) s).mono (fun _ _ _ _ none => none.elim) fun _ _ _ => trivial
  exact (clears r.keys).bind fun _ => (clears r.vals).bind fun _ => steady_modifyRecord dict fun _ => ⟨rfl, rfl⟩

theorem steady_new : Steady pre new fun x h => h.Element x := by
  refine SegList.steady_new.bind fun keys => ?_
  refine (steady_allocatePinned (.seglist {}) [keys] (fun _ same => Payload.seglist.inj same.symm ▸ rfl)
    (by simp [Payload.tag]) fun h element y member => ?_).bind fun vals => ?_
  · rwa [show y = keys by simpa [Payload.refs] using member]
  · refine steady_allocate _ (fun _ same => by cases same) (by simp [Payload.tag]) fun h both y member => ?_
    obtain ⟨element, pinned⟩ := both
    rcases List.mem_pair.1 member with rfl | rfl
    · exact pinned y List.mem_cons_self
    · exact element

/-- A key without its value is taken back, on both machines. -/
theorem steady_appendEntry (r : DictRecord) (key value : Handle) :
    Steady (fun h => (h.Rooted r.keys ∧ h.Element key) ∧ ∀ y, y = r.vals ∨ y = value → h.Anchored y)
      (appendEntry r key value) fun _ _ => True := by
  refine (SegList.steady_append _ r.keys key).bind fun _ => ?_
  refine Steady.recover ?_ fun e => ?_
  · refine (SegList.steady_append (fun _ => False) r.vals value).mono (fun h _ anchored => ?_) fun _ _ _ => trivial
    exact ⟨⟨(anchored _ (.inl rfl)).1, (anchored _ (.inr rfl)).2⟩, fun _ none => none.elim⟩
  · exact ((SegList.steady_remove (fun _ => False) r.keys r.length).mono (fun _ _ _ _ none => none.elim)
      fun _ _ ends => ends).bind fun _ => steady_throw e

theorem steady_set (dict key value : Handle) :
    Steady (fun h => h.Rooted dict ∧ h.Element key ∧ h.Element value) (set dict key value) fun _ _ => True := by
  refine (steady_record dict).bind fun r => ?_
  have storable : ∀ h, h.find? dict = some (.dict r) ∧ h.Rooted dict ∧ h.Element key ∧ h.Element value →
      Storable dict key value r h := fun h ⟨found, rooted, key_live, value_live⟩ =>
    ⟨found, ⟨rooted, ⟨_, found, by simp [Payload.tag]⟩⟩, key_live, value_live⟩
  refine ((steady_findKey r key fun _ _ glanced storable => storable.glanced glanced).mono (fun h _ facts => storable h facts)
    fun _ _ ends => ends).bind fun position => ?_
  split
  · exact (SegList.steady_set (fun _ => False) r.vals _ value).mono
      (fun _ _ storable => ⟨storable.value_live, fun _ none => none.elim⟩) fun _ _ _ => trivial
  · have body : Steady (Storable dict key value r)
        (do
          protect value
          appendEntry r key value
          modifyRecord dict fun r => { r with length := r.length + 1 }) fun _ _ => True := by
      refine (steady_protect value (fun _ storable => storable.value_live) fun h orderly storable => ?_).bind fun _ =>
        (steady_appendEntry r key value).bind fun _ => steady_modifyRecord dict fun _ => ⟨rfl, rfl⟩
      have stored : ∀ s ∈ (Payload.dict r).children, h.Anchored s := fun s member =>
        ⟨reaches_edge storable.table.1 storable.found member, orderly.refs dict _ storable.found s member⟩
      have kept : ∀ {y}, h.Anchored y → { h with roots := h.roots.protect value }.Anchored y :=
        fun anchored => anchored.rerooted (subset_protect h.roots value)
      refine ⟨⟨(kept (stored r.keys (by simp [Payload.children]))).1, storable.key_live⟩, ?_⟩
      rintro y (rfl | rfl)
      · exact kept (stored r.vals (by simp [Payload.children]))
      · exact ⟨.start (by simp [collectionRoots, RootSet.toList, RootSet.protect]), storable.value_live⟩
    exact body.guarded fun h storable => { storable with table := storable.table.rerooted (List.Subset.refl _) }

end DictObject

end ChunkHeap

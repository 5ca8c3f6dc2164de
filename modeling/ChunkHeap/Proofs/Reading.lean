import ChunkHeap.Classes
import ChunkHeap.Container.List
import ChunkHeap.Proofs.Integrity

/-!
# Reading

Access by position moves the cursor of a list. `Heap.Glanced` says that nothing
else has changed: objects hold the same up to cursors, and the roots lead to the
same objects. Every lookup in a container is such a reading (`HeapM.Reads`),
whatever handles it is given, and what it finds may be stored.
-/

namespace ChunkHeap
set_option autoImplicit false

/-- A payload without its cursor. -/
def Payload.still : Payload → Payload
  | .seglist r => .seglist { r with cursor := Option.none }
  | p => p

namespace Payload

variable {p q : Payload}

theorem still_of_tag (other : p.tag ≠ .seglist) : p.still = p := by
  cases p with
  | seglist r => exact absurd rfl other
  | _ => rfl

@[simp] theorem tag_still (p : Payload) : p.still.tag = p.tag := by
  cases p <;> rfl

@[simp] theorem children_still (p : Payload) : p.still.children = p.children := by
  cases p <;> rfl

theorem children_of_still (same : q.still = p.still) : q.children = p.children := by
  rw [← q.children_still, same, p.children_still]

/-- Only segmented lists have a cursor. -/
theorem eq_of_still (same : q.still = p.still) (other : p.tag ≠ .seglist) : q = p := by
  have tag : q.tag = p.tag := by rw [← q.tag_still, same, p.tag_still]
  calc
    q = q.still := (still_of_tag (tag ▸ other)).symm
    _ = p.still := same
    _ = p := still_of_tag other

end Payload

namespace Heap

variable {h g k : Heap} {x y s : Handle} {p q : Payload} {c : Chain} {loose : Option Handle}

/-- From `h` to `g` at most cursors have moved. -/
structure Glanced (h g : Heap) : Prop extends Upkeep h g where
  payloads : ∀ x, (g.find? x).map Payload.still = (h.find? x).map Payload.still
  sound : ∀ loose, h.Sound loose → g.Sound loose

namespace Glanced

theorem refl (h : Heap) : Glanced h h :=
  { Upkeep.refl h with payloads := fun _ => rfl, sound := fun _ sound => sound }

theorem trans (first : Glanced h g) (second : Glanced g k) : Glanced h k :=
  { first.toUpkeep.trans second.toUpkeep with
    payloads := fun x => (second.payloads x).trans (first.payloads x)
    sound := fun loose sound => second.sound loose (first.sound loose sound) }

theorem alike (glanced : Glanced h g) (found : h.find? x = some p) : ∃ q, g.find? x = some q ∧ q.still = p.still := by
  have same := glanced.payloads x
  rw [found, Option.map_some] at same
  exact Option.map_eq_some_iff.1 same

theorem alike_back (glanced : Glanced h g) (found : g.find? x = some q) : ∃ p, h.find? x = some p ∧ q.still = p.still := by
  have same := glanced.payloads x
  rw [found, Option.map_some] at same
  obtain ⟨p, live, eq⟩ := Option.map_eq_some_iff.1 same.symm
  exact ⟨p, live, eq.symm⟩

/-- What is not a segmented list is exactly as before. -/
theorem find? (glanced : Glanced h g) (found : h.find? x = some p) (other : p.tag ≠ .seglist) : g.find? x = some p := by
  obtain ⟨q, live, same⟩ := glanced.alike found
  exact live.trans (congrArg some (Payload.eq_of_still same other))

theorem element (glanced : Glanced h g) (element : h.Element x) : g.Element x := by
  obtain ⟨p, found, tag⟩ := element
  obtain ⟨q, live, same⟩ := glanced.alike found
  exact ⟨q, live, by rwa [← q.tag_still, same, p.tag_still]⟩

/-- Cursors are no edges. -/
theorem reaches_iff (glanced : Glanced h g) {starts : List Handle} :
    g.arena.Reaches starts x ↔ h.arena.Reaches starts x := by
  constructor
  · refine reaches_of_children fun z q _ found => ?_
    obtain ⟨p, live, same⟩ := glanced.alike_back found
    exact ⟨p, live, Payload.children_of_still same ▸ List.Subset.refl _⟩
  · refine reaches_of_children fun z p _ found => ?_
    obtain ⟨q, live, same⟩ := glanced.alike found
    exact ⟨q, live, Payload.children_of_still same ▸ List.Subset.refl _⟩

theorem rooted_iff (glanced : Glanced h g) : g.Rooted x ↔ h.Rooted x := by
  rw [Rooted, glanced.collectionRoots, glanced.reaches_iff, Rooted]

end Glanced

/-- An access that keeps the chain of a list as it is moves its cursor at most. -/
theorem Rechained.glanced (changed : Rechained s c h g c) (carries : h.Carries s c) : Glanced h g :=
  { changed.toUpkeep with
    payloads := by
      intro x
      by_cases same : x = s
      · obtain ⟨r, found, chained⟩ := carries
        obtain ⟨r', found', chained'⟩ := changed.here
        rw [same, found, found', Option.map_some, Option.map_some, Payload.still, Payload.still, chained.head,
          chained'.head, chained.tail, chained'.tail, chained.length, chained'.length]
      · by_cases inside : x ∈ c.map Prod.fst
        · obtain ⟨⟨t, items⟩, listed, rfl⟩ := List.mem_map.1 inside
          obtain ⟨n, here⟩ := List.mem_iff_getElem?.1 listed
          rw [carries.linked.getElem here, changed.here.linked.getElem here]
        · rw [changed.frame x same inside inside]
    sound := fun loose sound =>
      sound.rechained carries changed (fun y member => sound.item_element carries member) (fun _ _ _ _ => .inr rfl)
        (.inr rfl) }

end Heap

namespace HeapM

open Heap

variable {α β : Type} {pre : Heap → Prop} {post : α → Heap → Prop}

/-- The operation moves cursors at most, and its result satisfies `post` if it
starts where `pre` holds. -/
def Reads (pre : Heap → Prop) (op : HeapM α) (post : α → Heap → Prop) : Prop :=
  ∀ m loose, m.heap.Sound loose → pre m.heap →
    Glanced m.heap (op.run m).2.heap ∧ ∀ a, (op.run m).1 = .ok a → post a (op.run m).2.heap

theorem reads_pure (a : α) (holds : ∀ h, pre h → post a h) : Reads pre (pure a) post := by
  intro m loose sound start
  refine ⟨Glanced.refl _, fun b same => ?_⟩
  cases same
  exact holds m.heap start

theorem reads_throw (e : Error) : Reads pre (throw e : HeapM α) post :=
  fun _ _ _ _ => ⟨Glanced.refl _, fun _ same => by cases same⟩

theorem reads_inspect {f : Heap → Except Error α} (holds : ∀ h a, pre h → f h = .ok a → post a h) :
    Reads pre (inspect f) post :=
  fun m _ _ start => ⟨Glanced.refl _, fun a same => holds m.heap a start same⟩

theorem reads_heap {seen : Heap → Heap → Prop} (holds : ∀ h, pre h → seen h h) : Reads pre heap seen := by
  intro m loose sound start
  refine ⟨Glanced.refl _, fun h same => ?_⟩
  cases same
  exact holds m.heap start

theorem Reads.bind {op : HeapM α} {f : α → HeapM β} {last : β → Heap → Prop} (first : Reads pre op post)
    (next : ∀ a, Reads (post a) (f a) last) : Reads pre (op >>= f) last := by
  intro m loose sound start
  obtain ⟨glanced, middle⟩ := first m loose sound start
  rw [run_bind]
  rcases outcome : op.run m with ⟨_ | a, m'⟩
  · rw [outcome] at glanced
    exact ⟨glanced, fun _ same => by cases same⟩
  · rw [outcome] at glanced middle
    obtain ⟨glanced', ends⟩ := next a m' loose (glanced.sound loose sound) (middle a rfl)
    exact ⟨glanced.trans glanced', ends⟩

theorem Reads.mono {op : HeapM α} {pre' : Heap → Prop} {post' : α → Heap → Prop} (reads : Reads pre op post)
    (before : ∀ h, pre' h → pre h) (after : ∀ a h, post a h → post' a h) : Reads pre' op post' :=
  fun m loose sound start =>
    (reads m loose sound (before _ start)).imp_right fun ends a same => after a _ (ends a same)

/-- What cursors do not matter to stays true. -/
theorem Reads.framed {op : HeapM α} {frame : Heap → Prop} (reads : Reads pre op post)
    (still : ∀ h g, Glanced h g → frame h → frame g) :
    Reads (fun h => pre h ∧ frame h) op fun a h => post a h ∧ frame h := by
  intro m loose sound start
  obtain ⟨glanced, ends⟩ := reads m loose sound start.1
  exact ⟨glanced, fun a same => ⟨ends a same, still _ _ glanced start.2⟩⟩

/-- The same for a reading that needs nothing. -/
theorem Reads.steady {op : HeapM α} {frame : Heap → Prop} (reads : Reads (fun _ => True) op post)
    (still : ∀ h g, Glanced h g → frame h → frame g) : Reads frame op fun a h => post a h ∧ frame h :=
  (reads.framed still).mono (fun _ holds => ⟨trivial, holds⟩) fun _ _ facts => facts

end HeapM

/-! ### Lookups in containers -/

open Heap HeapM

/-- What an access to `s` may give. -/
def Heap.Found (h : Heap) (s x : Handle) : Prop :=
  h.Element x ∧ (h.Rooted s → h.Rooted x)

namespace Heap

variable {h g : Heap} {x y s : Handle} {p : Payload} {items : List Handle} {loose : Option Handle}

theorem Shaped.found_of_ref (shaped : h.Shaped) (live : h.find? x = some p) (ref : y ∈ p.refs) : h.Found x y :=
  ⟨shaped.refs x p live y ref, fun rooted => reaches_edge rooted live (refs_subset_children p ref)⟩

/-- A container leads to what its storages lead to. -/
theorem Found.through (found : h.Found s y) (live : h.find? x = some p) (edge : s ∈ p.children) : h.Found x y :=
  ⟨found.1, fun rooted => found.2 (reaches_edge rooted live edge)⟩

theorem Glanced.found (glanced : Glanced h g) (found : h.Found s x) : g.Found s x :=
  ⟨glanced.element found.1, fun rooted => glanced.rooted_iff.2 (found.2 (glanced.rooted_iff.1 rooted))⟩

theorem Shaped.found_segListItems (shaped : h.Shaped) (read : h.segListItems s = .ok items) :
    ∀ y ∈ items, h.Found s y := by
  cases record : h.segListRecord s with
  | error e => simp [segListItems, record, bind, Except.bind] at read
  | ok r =>
    have live := segListRecord_eq_ok_iff.1 record
    obtain ⟨c, chained⟩ := shaped.chains s r live
    rw [segListItems_eq live chained] at read
    cases read
    have carries : h.Carries s c := ⟨r, live, chained⟩
    exact fun y member => ⟨shaped.item_element carries member, fun rooted => (carries.reaches rooted).2 y member⟩

theorem Shaped.found_listItems (shaped : h.Shaped) (read : h.listItems x = .ok items) : ∀ y ∈ items, h.Found x y := by
  cases record : h.listRecord x with
  | error e => simp [listItems, record, bind, Except.bind] at read
  | ok r =>
    simp only [listItems, record, bind, Except.bind] at read
    intro y member
    refine (shaped.found_segListItems read y member).through (listRecord_eq_ok_iff.1 record) ?_
    exact List.mem_singleton_self _

theorem Shaped.found_sequenceItems (shaped : h.Shaped) (read : h.sequenceItems x = .ok items) :
    ∀ y ∈ items, h.Found x y := by
  cases record : h.payload x with
  | error e => simp [sequenceItems, record, bind, Except.bind] at read
  | ok p =>
    have live := payload_eq_ok_iff.1 record
    simp only [sequenceItems, record, bind, Except.bind] at read
    cases p with
    | tuple xs =>
      cases read
      exact fun y member => shaped.found_of_ref live member
    | list r =>
      exact fun y member => (shaped.found_segListItems read y member).through live (List.mem_singleton_self _)
    | _ => cases read

end Heap

theorem SegList.reads_get (list : Handle) (i : Nat) :
    Reads (fun _ => True) (SegList.get list i) fun x h => h.Found list x := by
  intro m loose sound _
  rcases SegList.locate_fails_or list i m with ⟨e, failed⟩ | ⟨r, found, inside⟩
  · rw [SegList.get, run_bind_error failed]
    exact ⟨Glanced.refl _, fun _ same => by cases same⟩
  · obtain ⟨c, chained⟩ := sound.chains list r found
    obtain ⟨x, m', here, got, changed⟩ := get_spec found chained inside
    have glanced := changed.glanced ⟨r, found, chained⟩
    have listed : x ∈ (c.map Prod.snd).flatten := List.mem_of_getElem? here
    rw [got]
    refine ⟨glanced, fun y same => ?_⟩
    cases same
    exact ⟨(glanced.sound loose sound).item_element changed.here listed,
      fun rooted => (changed.here.reaches rooted).2 x listed⟩

namespace DictObject

/-- Scanning the keys finds a position or not; either way it reads only. -/
theorem reads_findFrom (keys : Handle) (test : Heap → Handle → Except Error Bool) (count i : Nat) :
    Reads (fun _ => True) (findFrom keys test count i) fun _ _ => True := by
  induction count generalizing i with
  | zero => exact reads_pure _ fun _ _ => trivial
  | succ count ih =>
    refine (SegList.reads_get keys i).bind fun key => ?_
    refine (reads_inspect fun _ _ _ _ => trivial).bind fun passed => ?_
    cases passed with
    | true => exact reads_pure _ fun _ _ => trivial
    | false => exact (ih (i + 1)).mono (fun _ _ => trivial) fun _ _ _ => trivial

theorem reads_findKey (r : DictRecord) (key : Handle) : Reads (fun _ => True) (findKey r key) fun _ _ => True :=
  reads_findFrom _ _ _ _

theorem reads_valueAt (r : DictRecord) (position : Option Nat) :
    Reads (fun _ => True) (valueAt r position) fun found h => ∀ x ∈ found, h.Element x := by
  cases position with
  | none => exact reads_pure _ fun _ _ _ member => by cases member
  | some i =>
    rw [valueAt, map_eq_pure_bind]
    refine (SegList.reads_get r.vals i).bind fun x => reads_pure _ fun h found y member => ?_
    cases member
    exact found.1

/-- A lookup in a table, by whatever test. -/
theorem reads_lookupBy (dict : Handle) (find : DictRecord → HeapM (Option Nat))
    (reads : ∀ r, Reads (fun _ => True) (find r) fun _ _ => True) :
    Reads (fun _ => True) (do
      let r ← inspect fun h => h.dictRecord dict
      let found ← find r
      valueAt r found) fun found h => ∀ x ∈ found, h.Element x := by
  refine (reads_inspect fun _ _ _ _ => trivial).bind fun r => ?_
  exact (reads r).bind fun position => reads_valueAt r position

theorem reads_lookup (dict key : Handle) :
    Reads (fun _ => True) (lookup dict key) fun found h => ∀ x ∈ found, h.Element x :=
  reads_lookupBy dict _ fun r => reads_findKey r key

theorem reads_lookupText (dict : Handle) (text : String) :
    Reads (fun _ => True) (lookupText dict text) fun found h => ∀ x ∈ found, h.Element x :=
  reads_lookupBy dict _ fun _ => reads_findFrom _ _ _ _

end DictObject

/-- A lookup that has to succeed. -/
theorem HeapM.Reads.demanded {op : HeapM (Option Handle)} {e : Error}
    (reads : Reads (fun _ => True) op fun found h => ∀ x ∈ found, h.Element x) :
    Reads (fun _ => True) (do
      match ← op with
      | some x => return x
      | none => throw e) fun x h => h.Element x := by
  refine reads.bind fun found => ?_
  cases found with
  | none => exact reads_throw e
  | some x => exact reads_pure x fun h elements => elements x rfl

theorem DictObject.reads_get (dict key : Handle) : Reads (fun _ => True) (get dict key) fun x h => h.Element x :=
  (reads_lookup dict key).demanded

/-- The key and the value of an entry; a table that the roots lead to leads to both. -/
theorem DictObject.reads_entry (dict : Handle) (i : Nat) :
    Reads (fun _ => True) (entry dict i) fun e h => h.Found dict e.1 ∧ h.Found dict e.2 := by
  have record : Reads (fun _ => True) (inspect fun h => h.dictRecord dict) fun r h => h.find? dict = some (.dict r) :=
    reads_inspect fun h r _ read => dictRecord_eq_ok_iff.1 read
  refine record.bind fun r => ?_
  by_cases inside : i < r.length
  · rw [if_pos inside]
    have still : ∀ h g, Glanced h g → h.find? dict = some (.dict r) → g.find? dict = some (.dict r) :=
      fun h g glanced found => glanced.find? found (by simp [Payload.tag])
    refine ((SegList.reads_get r.keys i).steady still).bind fun key => ?_
    refine ((SegList.reads_get r.vals i).steady fun h g glanced (facts : h.Found r.keys key ∧ _) =>
      ⟨glanced.found facts.1, still h g glanced facts.2⟩).bind fun value => ?_
    refine reads_pure _ ?_
    rintro h ⟨value_found, key_found, live⟩
    refine ⟨?_, ?_⟩
    · exact key_found.through live (by simp [Payload.children])
    · exact value_found.through live (by simp [Payload.children])
  · rw [if_neg inside]
    exact reads_throw _

namespace ListObject

theorem reads_position (r : ListRecord) (index : Int) : Reads (fun _ => True) (position r index) fun _ _ => True := by
  unfold position
  cases Position.element? index r.length with
  | some i => exact reads_pure _ fun _ _ => trivial
  | none => exact reads_throw _

theorem reads_get (list : Handle) (index : Int) : Reads (fun _ => True) (get list index) fun x h => h.Element x := by
  refine (reads_inspect fun _ _ _ _ => trivial).bind fun r => ?_
  refine (reads_position r index).bind fun i => ?_
  exact (SegList.reads_get r.storage i).mono (fun _ _ => trivial) fun _ _ found => found.1

theorem reads_findFrom (storage value : Handle) (count i : Nat) :
    Reads (fun _ => True) (findFrom storage value count i) fun _ _ => True := by
  induction count generalizing i with
  | zero => exact reads_throw _
  | succ count ih =>
    refine (SegList.reads_get storage i).bind fun x => ?_
    refine (reads_inspect fun _ _ _ _ => trivial).bind fun comparison => ?_
    cases comparison with
    | same => exact reads_pure _ fun _ _ => trivial
    | differ => exact (ih (i + 1)).mono (fun _ _ => trivial) fun _ _ _ => trivial

theorem reads_indexOf (list value : Handle) : Reads (fun _ => True) (indexOf list value) fun _ _ => True :=
  (reads_inspect fun _ _ _ _ => trivial).bind fun r => (reads_findFrom r.storage value r.length 0)

end ListObject

namespace ClassObject

theorem reads_firstFound {search : Handle → HeapM (Option Handle)}
    (reads : ∀ x, Reads (fun _ => True) (search x) fun found h => ∀ y ∈ found, h.Element y) (xs : List Handle) :
    Reads (fun _ => True) (firstFound search xs) fun found h => ∀ y ∈ found, h.Element y := by
  induction xs with
  | nil => exact reads_pure _ fun _ _ _ member => by cases member
  | cons x xs ih =>
    refine (reads x).bind fun found => ?_
    cases found with
    | some y => exact reads_pure _ fun _ elements => elements
    | none => exact ih.mono (fun _ _ => trivial) fun _ _ elements => elements

/-- Attribute lookup through the bases, to any depth. -/
theorem reads_lookupWithin (key : Handle) (fuel : Nat) (x : Handle) :
    Reads (fun _ => True) (lookupWithin key fuel x) fun found h => ∀ y ∈ found, h.Element y := by
  induction fuel generalizing x with
  | zero => exact reads_pure _ fun _ _ _ member => by cases member
  | succ fuel ih =>
    refine (reads_inspect fun _ _ _ _ => trivial).bind fun r => ?_
    refine (DictObject.reads_lookup r.attrs key).bind fun found => ?_
    cases found with
    | some y => exact reads_pure _ fun _ elements => elements
    | none =>
      refine (reads_inspect fun _ _ _ _ => trivial).bind fun bases => ?_
      exact reads_firstFound ih bases

theorem reads_lookup (x key : Handle) :
    Reads (fun _ => True) (lookup x key) fun found h => ∀ y ∈ found, h.Element y :=
  (reads_heap fun _ _ => trivial).bind fun h => reads_lookupWithin key h.arena.slots.size x

theorem reads_get (x key : Handle) : Reads (fun _ => True) (get x key) fun y h => h.Element y :=
  (reads_lookup x key).demanded

end ClassObject

end ChunkHeap

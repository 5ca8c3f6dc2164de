import ChunkHeap.Proofs.Containers.Entries
import ChunkHeap.Proofs.Regions

/-!
# What an instantiation builds

An instantiation allocates the instance, gives it a table of its own, copies the
members of the class into it one by one, binding those that are functions, and then
looks `__init__` up in the new table. Before each allocation there may be a collection,
for which nothing but the instance is protected.

The loop over the members keeps `ClassObject.Copied`: the table has the keys that have
been read so far, and what lies in the region of the class shows what it showed. The
region is everything that the roots lead to if they lead to the table of the class.
Otherwise it lasts as long as nothing is collected; only after the last member has been
bound is the class no longer needed. `ClassObject.Built` is what the loop ends with, and
`ClassObject.Concludes` what `__init__` then comes to.
-/

namespace ChunkHeap
set_option autoImplicit false

open HeapM Heap

namespace HeapM

variable {α β : Type} {size : Nat}

/-- The operation fails only where there is no room for a chunk of `size` bytes, for want
of memory, and keeps the accounts. -/
def FailsFull (size : Nat) (op : HeapM α) : Prop :=
  ∀ m, m.heap.Accounted → (op.run m).2.heap.Accounted ∧
    ∀ e, (op.run m).1 = .error e → e.kind = .memory ∧ ¬ (op.run m).2.heap.Admits size

theorem FailsFull.bind {op : HeapM α} {f : α → HeapM β} (first : FailsFull size op)
    (second : ∀ a, FailsFull size (f a)) : FailsFull size (op >>= f) := by
  intro m ok
  have before := first m ok
  rw [run_bind]
  rcases ran : op.run m with ⟨e | a, m'⟩
  · rw [ran] at before
    refine ⟨before.1, fun e' same => ?_⟩
    cases same
    exact before.2 e rfl
  · rw [ran] at before
    exact second a m' before.1

theorem failsFull_allocatePinned (p : Payload) (pins : List Handle) (small : p.chunkBytes ≤ size) :
    FailsFull size (allocatePinned p pins) := by
  intro m ok
  obtain ⟨g, swept, ⟨e, m', failed, memory, rfl, full⟩ | ⟨x, m', made, entered⟩⟩ := allocatePinned_spec (m := m) p pins ok
  · rw [failed]
    refine ⟨(swept.upkeep ok).accounted ok, fun e' same => ?_⟩
    cases same
    exact ⟨memory, fun admits => full (admits.mono small)⟩
  · rw [made]
    exact ⟨entered.accounted ((swept.upkeep ok).accounted ok), fun e same => by cases same⟩

end HeapM

/-- A table and its two segmented lists take chunks of one size. -/
theorem DictObject.failsFull_new : FailsFull (Payload.seglist {}).chunkBytes new := by
  apply (failsFull_allocatePinned _ _ (Nat.le_refl _)).bind
  intro ks
  apply (failsFull_allocatePinned _ _ (Nat.le_refl _)).bind
  intro vs
  exact failsFull_allocatePinned _ _ (Nat.le_refl _)

theorem Heap.rooted_of_inFlight {h : Heap} {x : Handle} (kept : x ∈ h.roots.inFlight) : h.Rooted x :=
  .start (by simp [collectionRoots, RootSet.toList, kept])

/-- Making a table: what the roots lead to is kept, and they do not lead to the new parts. -/
theorem DictObject.run_new {m : Machine} (sound : m.heap.Sound none) :
    (∃ e m', new.run m = (.error e, m') ∧ e.kind = .memory) ∨
      ∃ d ks vs m', new.run m = (.ok d, m') ∧ Kept true (fun _ => False) m.heap m'.heap ∧ m'.heap.HasEntries d ks vs [] ∧
        ∀ x ∈ [d, ks, vs], ¬ m'.heap.Rooted x := by
  have keeps : Keeps true (fun _ => False) _ new _ := keeps_new fun _ => False
  obtain ⟨kept, table⟩ := keeps m sound fun _ none => none.elim
  have full := (failsFull_new m sound.accounted).2
  rcases ran : new.run m with ⟨e | d, m'⟩
  · rw [ran] at full
    exact .inl ⟨e, m', rfl, (full e rfl).1⟩
  · rw [ran] at kept table
    obtain ⟨⟨ks, vs, empty, unrooted⟩, -⟩ := table d rfl
    obtain ⟨E, has⟩ := kept.sound.hasEntries empty
    obtain rfl : E = [] := by
      have record := has.find?
      rw [empty] at record
      injection record with record
      injection record with record
      injection record with length
      exact List.length_eq_zero_iff.1 length.symm
    exact .inr ⟨d, ks, vs, m', rfl, kept, has, unrooted⟩

/-- What follows an operation only adds to the collections. -/
theorem HeapM.collections_le_bind {α β : Type} {op : HeapM α} {f : α → HeapM β} {tame building : Bool}
    (takes : ∀ a, Takes Machine.NoCalls tame building (f a)) (m : Machine) :
    (op.run m).2.heap.collections ≤ ((op >>= f).run m).2.heap.collections := by
  rw [run_bind]
  rcases op.run m with ⟨e | a, m'⟩
  · exact Nat.le_refl _
  · exact (takes a m').collections_le

/-- Reading an entry by its position. -/
theorem DictObject.run_entry {m : Machine} {d ks vs key value : Handle} {E : List (Handle × Handle)} {i : Nat}
    (sound : m.heap.Sound none) (has : m.heap.HasEntries d ks vs E) (here : E[i]? = some (key, value)) :
    ∃ m', (entry d i).run m = (.ok (key, value), m') ∧ Glanced m.heap m'.heap := by
  have inside : i < E.length := (List.getElem?_eq_some_iff.1 here).1
  obtain ⟨m₁, first, glanced⟩ := SegList.run_get sound has.keys i
  obtain ⟨m₂, second, glanced'⟩ := SegList.run_get (glanced.sound none sound) (has.glanced glanced sound).vals i
  rw [List.getElem?_map, here] at first second
  refine ⟨m₂, ?_, glanced.trans glanced'⟩
  rw [entry, run_bind_ok (run_record has), if_pos inside, run_bind_ok first, run_bind_ok second]
  rfl

namespace Heap

variable {h g : Heap} {x y : Handle} {p : Payload} {text : String}

theorem strEquals_of_str (found : h.find? x = some (.str text)) : h.strEquals x text = .ok true := by
  rw [strEquals, payload_eq_ok_iff.2 found]
  simp [bind, Except.bind]

theorem strEquals_of_ne (found : h.find? x = some p) (other : p ≠ .str text) : h.strEquals x text = .ok false := by
  rw [strEquals, payload_eq_ok_iff.2 found]
  cases p with
  | str s =>
    have different : s ≠ text := fun same => other (congrArg Payload.str same)
    simp [bind, Except.bind, different]
  | _ => rfl

/-- Objects that show the same are equal to the same texts. -/
theorem strEquals_congr (shaped : h.Shaped) (element : h.Element x) (same : g.content? x = h.content? x) :
    g.strEquals x text = h.strEquals x text := by
  obtain ⟨p, found, kind⟩ := element
  have persists : Persists (· = x) h g := fun y here => by rw [here, same]
  obtain ⟨q, found', tag, record⟩ := persists.alike shaped rfl found kind
  by_cases list : p.tag = .seglist
  · rw [strEquals_of_ne found, strEquals_of_ne found']
    · rintro rfl
      rw [← tag] at list
      cases list
    · rintro rfl
      cases list
  · obtain rfl := record list
    rw [strEquals, strEquals, payload_eq_ok_iff.2 found, payload_eq_ok_iff.2 found']

/-- Strings with the same text are equal. -/
theorem compare_of_str (sound : h.Sound none) (left : h.find? x = some (.str text)) (right : h.find? y = some (.str text)) :
    h.compare x y = .ok .same := by
  rw [Heap.compare, compareWithin_eq sound _ left right]
  split
  · rfl
  · simp [facet, Facet.compare]

/-- Among keys that differ from each other at most one is a given text. -/
theorem search_of_str {keys : List Handle} {i : Nat} (sound : h.Sound none) (live : ∀ key ∈ keys, h.Element key)
    (distinct : keys.Pairwise fun a b => h.compare a b = .ok .differ) (here : keys[i]? = some x)
    (string : h.find? x = some (.str text)) : search (fun key => h.strEquals key text) keys = .ok (some i) := by
  refine search_eq_some_iff.2 ⟨⟨x, here, strEquals_of_str string⟩, fun key earlier => ?_⟩
  obtain ⟨p, found, -⟩ := live key (List.mem_of_mem_take earlier)
  refine strEquals_of_ne found fun same => ?_
  rw [← List.take_append_drop i keys, List.pairwise_append] at distinct
  have later : x ∈ keys.drop i := by
    apply List.mem_of_getElem? (i := 0)
    rw [List.getElem?_drop, Nat.add_zero, here]
  have differ := distinct.2.2 key earlier x later
  rw [compare_of_str sound (same ▸ found) string] at differ
  cases differ

theorem search_of_no_str {keys : List Handle} (live : ∀ key ∈ keys, h.Element key)
    (nowhere : ∀ key ∈ keys, h.find? key ≠ some (.str text)) :
    search (fun key => h.strEquals key text) keys = .ok none := by
  refine search_eq_none_iff.2 fun key member => ?_
  obtain ⟨p, found, -⟩ := live key member
  refine strEquals_of_ne found fun same => nowhere key member ?_
  rw [found, same]

end Heap

namespace ClassObject

variable {m m' : Machine} {obj attrs ks vs cls : Handle} {template : ClassRecord}

/-! ### An instance with an empty table -/

/-- An instance of the class with record `template`, and its table, still empty. -/
def equip (template : ClassRecord) : HeapM (Handle × Handle) := do
  let obj ← allocate (.inst template)
  protect obj
  let attrs ← DictObject.new
  setAttrs obj attrs
  return (obj, attrs)

theorem assemble_eq (template : ClassRecord) :
    assemble template = equip template >>= fun (obj, attrs) => do
      let count ← inspect fun h => h.dictLength template.attrs
      copyMembers template.attrs attrs obj count 0
      return (obj, attrs) := by
  simp only [assemble, equip, bind_assoc, pure_bind]

/-- The instance has been made and is kept. The roots lead to all that they and the
parts of the class led to, as long as the instance shares the table of the class. -/
theorem run_begin (sound : m.heap.Sound none) (refs : ∀ y ∈ (Payload.inst template).refs, m.heap.Element y) :
    (∃ e m', (allocate (.inst template)).run m = (.error e, m') ∧ e.kind = .memory) ∨
      ∃ obj m₁ m₂, (allocate (.inst template)).run m = (.ok obj, m₁) ∧ (protect obj).run m₁ = (.ok (), m₂) ∧
        m₂.heap.Sound none ∧ m₂.heap.find? obj = some (.inst template) ∧ obj ∈ m₂.heap.roots.inFlight ∧
        m.heap.collectionRoots [] ⊆ m₂.heap.collectionRoots [] ∧
        Persists (m.heap.Within (Payload.inst template).children) m.heap m₂.heap ∧
        ¬ m.heap.Within (Payload.inst template).children obj := by
  rcases allocate_outcome (.inst template) sound refs (by simp [Payload.tag]) (by simp [Payload.tag]) rfl rfl with
    failed | ⟨obj, m₁, g, made, sound₁, between, swept, entered⟩
  · exact .inl failed
  · obtain ⟨persists, fresh⟩ := entered.persists swept sound between (by simp [Payload.tag]) (by simp [Payload.tag])
    have keeps : Keeps true (fun _ => False) (fun h => h.Element obj) (protect obj) fun _ _ => True :=
      keeps_protect obj (fun _ element => element) fun _ _ => trivial
    have kept := (keeps m₁ sound₁ ⟨_, entered.here, by simp [Payload.tag]⟩).1
    have upkeep := (swept.upkeep sound.accounted).trans entered.toUpkeep
    refine .inr ⟨obj, m₁, _, made, rfl, kept.sound, entered.here, by simp [RootSet.protect], ?_, ?_, fresh⟩
    · rw [← upkeep.collectionRoots]
      exact kept.roots_subset
    · exact persists.trans fun x _ => sound₁.toShaped.content?_rerooted _ x

/-- `k` is `h` with an instance of the class that has a table of its own, still empty.
All that the roots and the parts of the class led to has persisted. -/
structure Equipped (template : ClassRecord) (obj attrs ks vs : Handle) (h k : Heap) : Prop where
  sound : k.Sound none
  made : k.find? obj = some (.inst { template with attrs := attrs })
  kept : obj ∈ k.roots.inFlight
  table : k.HasEntries attrs ks vs []
  roots : h.collectionRoots [] ⊆ k.collectionRoots []
  persists : Persists (h.Within (Payload.inst template).children) h k
  fresh : ∀ x ∈ [obj, attrs, ks, vs], ¬ h.Within (Payload.inst template).children x

theorem run_equip (sound : m.heap.Sound none) (refs : ∀ y ∈ (Payload.inst template).refs, m.heap.Element y) :
    (∃ e m', (equip template).run m = (.error e, m') ∧ e.kind = .memory) ∨
      ∃ obj attrs ks vs m', (equip template).run m = (.ok (obj, attrs), m') ∧
        Equipped template obj attrs ks vs m.heap m'.heap := by
  rcases run_begin sound refs with ⟨e, m', failed, memory⟩ |
    ⟨obj, m₁, m₂, made, guarded, sound₂, found, kept, roots, persists, fresh⟩
  · exact .inl ⟨e, m', by rw [equip, run_bind_error failed], memory⟩
  have root : m₂.heap.Rooted obj := rooted_of_inFlight kept
  have starts : ∀ x ∈ m.heap.collectionRoots (Payload.inst template).children, m₂.heap.Rooted x := by
    intro x member
    rcases List.mem_append.1 member with root' | part
    · exact .start (roots (List.mem_append_left _ root'))
    · exact reaches_edge root found part
  have anchored : ∀ x, m.heap.Within (Payload.inst template).children x → m₂.heap.Anchored x :=
    fun x => persists.anchored sound sound₂.toShaped refs starts
  -- the table
  rcases DictObject.run_new sound₂ with ⟨e, m', failed, memory⟩ | ⟨attrs, ks, vs, m₃, ran, kept₃, empty, unrooted⟩
  · exact .inl ⟨e, m', by rw [equip, run_bind_ok made, run_bind_ok guarded, run_bind_error failed], memory⟩
  have persists₃ : Persists m₂.heap.Anchored m₂.heap m₃.heap :=
    kept₃.confined.persists sound₂.toShaped kept₃.sound.toShaped
  have anchored₃ : ∀ x, m₂.heap.Anchored x → m₃.heap.Anchored x := fun x =>
    persists₃.rooted sound₂ kept₃.sound.toShaped kept₃.roots_subset
  have obj_anchored : m₂.heap.Anchored obj := ⟨root, _, found, by simp [Payload.tag]⟩
  have found₃ := persists₃.find? obj_anchored found (by simp [Payload.tag]) (by simp [Payload.tag])
  have kept_obj : obj ∈ m₃.heap.roots.inFlight := by
    obtain ⟨more, same, -⟩ := kept₃.roots
    rw [same]
    exact List.mem_append_left _ kept
  -- from the table of the class to the new one
  obtain ⟨done, edited, written, sound₄⟩ := setAttrs_spec kept₃.sound found₃ empty.element
  have updated := edited.content? kept₃.sound.toShaped found₃ written rfl (by simp [Payload.tag]) (by simp [Payload.tag])
  have elsewhere : ∀ x, x ≠ obj → _ := fun x other => (congrFun updated x).trans (Function.update_of_ne other _ _)
  have part : ∀ x ∈ [attrs, ks, vs], x ≠ obj := by
    rintro x member rfl
    exact unrooted x member (anchored₃ x obj_anchored).1
  refine .inr ⟨obj, attrs, ks, vs, _, ?_, sound₄, written, kept_obj, ⟨?_, ?_, ?_⟩, ?_, ?_, ?_⟩
  · rw [equip, run_bind_ok made, run_bind_ok guarded, run_bind_ok ran, run_bind_ok done]
    rfl
  · exact (elsewhere attrs (part attrs (by simp))).trans empty.record
  · exact (elsewhere ks (part ks (by simp))).trans empty.keys
  · exact (elsewhere vs (part vs (by simp))).trans empty.vals
  · rw [edited.toUpkeep.collectionRoots]
    exact fun x member => kept₃.roots_subset (roots member)
  · intro x within
    have other : x ≠ obj := by
      rintro rfl
      exact fresh within
    rw [elsewhere x other, persists₃ x (anchored x within), persists x within]
  · intro x member within
    rcases List.mem_cons.1 member with rfl | part
    · exact fresh within
    · exact unrooted x part (anchored₃ x (anchored x within)).1

/-! ### The members -/

/-- What an instance `obj` has for a member of its class: a method for a function, and
anything else as it is. The method is none of the `old` objects. -/
inductive Member (old : Handle → Prop) (before after : Heap) (obj value : Handle) : Handle → Prop
  | plain (other : ∀ r, before.find? value ≠ some (.function r)) : Member old before after obj value value
  | method {r : FunctionRecord} {x : Handle} (function : before.find? value = some (.function r)) (fresh : ¬ old x)
      (bound : after.find? x = some (.method ⟨value, obj⟩)) : Member old before after obj value x

/-- The copy loop up to the point where the last member has been bound. -/
def bindMembers (template attrs obj : Handle) : (count i : Nat) → HeapM Unit
  | 0, _ => return ()
  | count + 1, i => do
    let (key, value) ← DictObject.entry template i
    let member ← bindMember obj value
    unless count = 0 do
      DictObject.set attrs key member
      bindMembers template attrs obj count (i + 1)

theorem takes_bindMembers {foreign : Machine → Machine → Prop} {tame building : Bool} (template attrs obj : Handle)
    (count i : Nat) : Takes foreign tame building (bindMembers template attrs obj count i) := by
  induction count generalizing i with
  | zero => exact takes_pure _
  | succ count ih =>
    refine (DictObject.takes_entry _ _).bind fun e => (takes_bindMember _ _).bind fun member => ?_
    by_cases last : count = 0
    · rw [if_pos last]
      exact takes_pure _
    · rw [if_neg last]
      exact (DictObject.takes_set _ _ _).bind fun _ => ih _

/-- The table of the class has the entries `E` in `base`, and all of it lies in the
region `K`, apart from the table of the instance. -/
structure Source (K : Handle → Prop) (template : ClassRecord) (E : List (Handle × Handle)) (attrs ks vs : Handle)
    (base : Heap) : Prop where
  sound : base.Sound none
  region : base.Region K
  anchored : ∀ x, base.Anchored x → K x
  inside : K template.attrs
  table : ∃ keys vals, base.HasEntries template.attrs keys vals E
  distinct : E.Pairwise fun e f => base.compare e.1 f.1 = .ok .differ
  apart : ∀ x, DictObject.Parts attrs ks vs x → ¬ K x

/-- The entries `done` of the class have been copied to the instance, as `members`. -/
structure Copied (K : Handle → Prop) (template : ClassRecord) (obj attrs ks vs : Handle) (base : Heap)
    (done : List (Handle × Handle)) (members : List Handle) (h : Heap) : Prop where
  sound : h.Sound none
  made : h.find? obj = some (.inst { template with attrs := attrs })
  kept : obj ∈ h.roots.inFlight
  roots : base.collectionRoots [] ⊆ h.collectionRoots []
  table : h.HasEntries attrs ks vs ((done.map Prod.fst).zip members)
  bound : List.Forall₂ (Member K base h obj) (done.map Prod.snd) members
  once : ∀ x, ¬ K x → members.count x ≤ 1

section Copying

variable {K : Handle → Prop} {base h g : Heap} {E done rest : List (Handle × Handle)} {members : List Handle}
  {key value member x : Handle}

/-- Keys and values belong to the region. -/
theorem Source.entry_inside (source : Source K template E attrs ks vs base) {e : Handle × Handle} (entry : e ∈ E) :
    K e.1 ∧ K e.2 := by
  obtain ⟨keys, vals, has⟩ := source.table
  obtain ⟨content, shown, refs⟩ := source.region _ source.inside
  rw [has.record] at shown
  cases shown
  have storage : ∀ {s xs}, s ∈ [keys, vals] → base.content? s = some (.items xs) → ∀ y ∈ xs, K y := by
    intro s xs member items y held
    obtain ⟨content, shown, refs'⟩ := source.region s (refs s member)
    rw [items] at shown
    cases shown
    exact refs' y held
  constructor
  · exact storage (by simp) has.keys _ (List.mem_map_of_mem entry)
  · exact storage (by simp) has.vals _ (List.mem_map_of_mem entry)

/-- The table of the class, as long as the region persists. -/
theorem Source.hasEntries (source : Source K template E attrs ks vs base) (persists : Persists K base h) :
    ∃ keys vals, h.HasEntries template.attrs keys vals E := by
  obtain ⟨keys, vals, has⟩ := source.table
  obtain ⟨content, shown, refs⟩ := source.region _ source.inside
  rw [has.record] at shown
  cases shown
  refine ⟨keys, vals, ?_, ?_, ?_⟩
  · exact (persists _ source.inside).trans has.record
  · exact (persists keys (refs keys (by simp [Content.refs, Payload.refs, Payload.children]))).trans has.keys
  · exact (persists vals (refs vals (by simp [Content.refs, Payload.refs, Payload.children]))).trans has.vals

/-- Members stay bound as long as methods stay what they are. -/
theorem members_persist {values : List Handle} (bound : List.Forall₂ (Member K base h obj) values members)
    (same : ∀ x ∈ members, ∀ r, h.find? x = some (.method r) → g.find? x = some (.method r)) :
    List.Forall₂ (Member K base g obj) values members := by
  rw [List.forall₂_iff_zip] at bound ⊢
  refine ⟨bound.1, fun pair => ?_⟩
  cases bound.2 pair with
  | plain other => exact .plain other
  | method function fresh method => exact .method function fresh (same _ (List.of_mem_zip pair).2 _ method)

theorem exists_member {values : List Handle} (bound : List.Forall₂ (Member K base h obj) values members) (held : x ∈ values) :
    ∃ y ∈ members, Member K base h obj x y := by
  induction bound with
  | nil => cases held
  | cons first _ ih =>
    rcases List.mem_cons.1 held with rfl | later
    · exact ⟨_, List.mem_cons_self, first⟩
    · obtain ⟨y, inside, bound⟩ := ih later
      exact ⟨y, List.mem_cons_of_mem _ inside, bound⟩

namespace Copied

variable (copied : Copied K template obj attrs ks vs base done members h)

include copied

theorem length_eq : done.length = members.length := by
  have := copied.bound.length_eq
  rwa [List.length_map] at this

theorem rooted : h.Rooted attrs :=
  reaches_edge (rooted_of_inFlight copied.kept) copied.made (by simp [Payload.children])

theorem glanced (glanced : Glanced h g) : Copied K template obj attrs ks vs base done members g where
  sound := glanced.sound none copied.sound
  made := glanced.find? copied.made (by simp [Payload.tag])
  kept := glanced.roots ▸ copied.kept
  roots := by
    rw [glanced.toUpkeep.collectionRoots]
    exact copied.roots
  table := copied.table.glanced glanced copied.sound
  bound := members_persist copied.bound fun _ _ _ found => glanced.find? found (by simp [Payload.tag])
  once := copied.once

/-- The values of the table are the members. -/
theorem map_snd_table : ((done.map Prod.fst).zip members).map Prod.snd = members :=
  List.map_snd_zip (by simp [copied.length_eq])

/-- The roots lead to the members that have been stored. -/
theorem anchored_member (member : x ∈ members) : h.Anchored x := by
  have shaped := copied.sound.toShaped
  have held : x ∈ (Content.items (((done.map Prod.fst).zip members).map Prod.snd)).refs := by
    rw [copied.map_snd_table]
    exact member
  have storage := copied.table.anchored_vals shaped copied.rooted
  exact ⟨shaped.reaches_ref storage.1 copied.table.vals held, shaped.element_of_ref copied.table.vals held⟩

/-- An allocation, whatever it collects. -/
theorem allocated {p : Payload} {between : Heap} (swept : Swept p.children h between) (entered : Entered x p between g)
    (sound : between.Sound none) (sound' : g.Sound none) (list : p.tag ≠ .seglist) (segment : p.tag ≠ .segment) :
    Copied K template obj attrs ks vs base done members g := by
  have persists : Persists h.Anchored h g :=
    (entered.persists swept copied.sound sound list segment).1.mono fun y anchored => anchored.within _
  have upkeep := (swept.upkeep copied.sound.accounted).trans entered.toUpkeep
  have shaped := copied.sound.toShaped
  have obj_anchored : h.Anchored obj := ⟨rooted_of_inFlight copied.kept, _, copied.made, by simp [Payload.tag]⟩
  refine ⟨sound', ?_, upkeep.roots ▸ copied.kept, ?_, ?_, ?_, copied.once⟩
  · exact persists.find? obj_anchored copied.made (by simp [Payload.tag]) (by simp [Payload.tag])
  · rw [upkeep.collectionRoots]
    exact copied.roots
  · constructor
    · exact (persists _ ⟨copied.rooted, copied.table.element⟩).trans copied.table.record
    · exact (persists _ (copied.table.anchored_keys shaped copied.rooted)).trans copied.table.keys
    · exact (persists _ (copied.table.anchored_vals shaped copied.rooted)).trans copied.table.vals
  · refine members_persist copied.bound fun y member r found => ?_
    exact persists.find? (copied.anchored_member member) found (by simp [Payload.tag]) (by simp [Payload.tag])

end Copied

/-- The roots still lead to what they led to, as long as it persists. -/
theorem Copied.anchored (copied : Copied K template obj attrs ks vs base done members h) (sound : base.Sound none)
    (persists : Persists base.Anchored base h) (anchored : base.Anchored x) : h.Anchored x :=
  persists.rooted sound copied.sound.toShaped copied.roots anchored

/-- An allocation spares the region if the roots lead to it, or if there is no collection,
and gives out a slot outside it. -/
theorem Source.persists_allocated {p : Payload} {between : Heap} (source : Source K template E attrs ks vs base)
    (copied : Copied K template obj attrs ks vs base done members h) (persists : Persists K base h)
    (swept : Swept p.children h between) (entered : Entered x p between g) (sound : between.Sound none)
    (list : p.tag ≠ .seglist) (segment : p.tag ≠ .segment)
    (safe : (∀ x, K x → base.Rooted x) ∨ g.collections = h.collections) : Persists K base g ∧ ¬ K x := by
  have spared : ∀ y, K y → between.content? y = h.content? y := by
    intro y inside
    rcases safe with led | uncollected
    · have anchored := copied.anchored source.sound (persists.mono source.anchored)
        ⟨led y inside, source.region.element source.sound.toShaped inside⟩
      exact swept.content? copied.sound.toShaped (anchored.1.collected _)
    · rcases swept with rfl | rfl
      · rfl
      · have counted := entered.collections
        simp only [collectWith_heap] at counted
        omega
  have new : ¬ K x := by
    intro inside
    obtain ⟨content, shown, -⟩ := source.region x inside
    rw [← persists x inside, ← spared x inside, content?_of_none entered.fresh] at shown
    cases shown
  refine ⟨fun y inside => ?_, new⟩
  have other : y ≠ x := by
    rintro rfl
    exact new inside
  rw [entered.content? sound.toShaped segment (.inl ⟨rfl, list⟩), Function.update_of_ne other, spared y inside,
    persists y inside]

/-- A member is bound. The region persists if the roots lead to it, or if there is no
collection. -/
theorem run_bindMember (source : Source K template E attrs ks vs base)
    (copied : Copied K template obj attrs ks vs base done members m.heap) (persists : Persists K base m.heap) (inside : K value)
    (safe : (∀ x, K x → base.Rooted x) ∨ ((bindMember obj value).run m).2.heap.collections = m.heap.collections) :
    (∃ e m', (bindMember obj value).run m = (.error e, m') ∧ e.kind = .memory) ∨
      ∃ member m', (bindMember obj value).run m = (.ok member, m') ∧
        Copied K template obj attrs ks vs base done members m'.heap ∧ Persists K base m'.heap ∧ m'.heap.Element member ∧
        Member K base m'.heap obj value member ∧ (¬ K member → member ∉ members) := by
  have sound := copied.sound
  obtain ⟨p, found, kind⟩ := source.region.element source.sound.toShaped inside
  obtain ⟨q, found', tag, same⟩ := persists.alike source.sound.toShaped inside found kind
  have tagged : m.heap.tagOf value = .ok p.tag := by
    rw [sound.headed.tagOf_eq, payload_eq_ok_iff.2 found', ← tag]
    rfl
  have ran : (bindMember obj value).run m = (if p.tag = .function then MethodObject.new value obj else pure value).run m :=
    run_bind_ok (run_inspect_ok tagged)
  by_cases function : p.tag = .function
  · -- a new method
    obtain ⟨r, rfl⟩ : ∃ r, p = .function r := by
      cases p with
      | function r => exact ⟨r, rfl⟩
      | _ => cases function
    rw [if_pos function] at ran
    rw [ran] at safe ⊢
    have refs : ∀ y ∈ (Payload.method ⟨value, obj⟩).refs, m.heap.Element y := by
      intro y member
      rcases List.mem_pair.1 member with rfl | rfl
      · exact ⟨q, found', tag ▸ kind⟩
      · exact ⟨_, copied.made, by simp [Payload.tag]⟩
    rcases allocate_outcome (.method ⟨value, obj⟩) sound refs (by simp [Payload.tag]) (by simp [Payload.tag]) rfl rfl with
      failed | ⟨x, m', g, made, sound', between, swept, entered⟩
    · exact .inl failed
    · right
      have after := copied.allocated swept entered between sound' (by simp [Payload.tag]) (by simp [Payload.tag])
      have fresh := (entered.persists swept sound between (by simp [Payload.tag]) (by simp [Payload.tag])).2
      rw [show (MethodObject.new value obj).run m = (.ok x, m') from made] at safe
      obtain ⟨persists', new⟩ := source.persists_allocated copied persists swept entered between (by simp [Payload.tag])
        (by simp [Payload.tag]) safe
      -- the earlier members are live while the new one is made
      refine ⟨x, m', made, after, persists', ⟨_, entered.here, by simp [Payload.tag]⟩, .method found new entered.here,
        fun _ member => fresh ((copied.anchored_member member).within _)⟩
  · rw [if_neg function] at ran
    refine .inr ⟨value, m, ran, copied, persists, ⟨q, found', tag ▸ kind⟩, .plain fun r method => ?_,
      fun outside => absurd inside outside⟩
    rw [found] at method
    cases method
    exact function rfl

/-- Something of another kind than a table or a segmented list is no part of a table. -/
theorem Copied.not_part {p : Payload} (copied : Copied K template obj attrs ks vs base done members h)
    (found : h.find? x = some p) (dict : p.tag ≠ .dict) (list : p.tag ≠ .seglist) : ¬ DictObject.Parts attrs ks vs x := by
  obtain ⟨r, keys⟩ := (segListItems_of_items copied.table.keys).1
  obtain ⟨s, vals⟩ := (segListItems_of_items copied.table.vals).1
  rintro (rfl | rfl | rfl)
  · rw [copied.table.find?] at found
    cases found
    exact dict rfl
  · rw [keys] at found
    cases found
    exact list rfl
  · rw [vals] at found
    cases found
    exact list rfl

/-- An update of the table leaves what is no part of it and still live. -/
theorem Copied.find?_altered {p : Payload} (copied : Copied K template obj attrs ks vs base done members h)
    (altered : Altered (DictObject.Parts attrs ks vs) h g) (live : g.Element x) (found : h.find? x = some p)
    (dict : p.tag ≠ .dict) (list : p.tag ≠ .seglist) (segment : p.tag ≠ .segment) : g.find? x = some p := by
  obtain ⟨content, shown⟩ := altered.sound.element_iff.1 live
  have before := altered.old x content (copied.not_part found dict list) shown
  rw [content?_of_record found list segment] at before
  cases before
  exact (find?_of_record shown).1

/-- A key of the class differs from those before it, so it is not found among them. -/
theorem Source.key_absent (source : Source K template E attrs ks vs base)
    (copied : Copied K template obj attrs ks vs base done members h) (persists : Persists K base h)
    (split : E = done ++ (key, value) :: rest) :
    search (h.sameAs key) (((done.map Prod.fst).zip members).map Prod.fst) = .ok none := by
  have inside : ∀ e ∈ E, K e.1 := fun e member => (source.entry_inside member).1
  rw [List.map_fst_zip (by simp [copied.length_eq]), search_eq_none_iff]
  intro x member
  obtain ⟨e, earlier, rfl⟩ := List.mem_map.1 member
  have differ : base.compare e.1 key = .ok .differ := by
    have distinct := source.distinct
    rw [split, List.pairwise_append] at distinct
    exact distinct.2.2 e earlier (key, value) List.mem_cons_self
  have same := source.region.compare persists source.sound copied.sound (inside e (by simp [split, earlier]))
    (inside (key, value) (by simp [split]))
  rw [sameAs, same, differ]
  rfl

/-- A member is stored. -/
theorem run_storeMember (source : Source K template E attrs ks vs base)
    (copied : Copied K template obj attrs ks vs base done members m.heap) (persists : Persists K base m.heap)
    (split : E = done ++ (key, value) :: rest) (element : m.heap.Element member) (bound : Member K base m.heap obj value member)
    (new : ¬ K member → member ∉ members) :
    (∃ e m', (DictObject.set attrs key member).run m = (.error e, m') ∧ e.kind = .memory) ∨
      ∃ m', (DictObject.set attrs key member).run m = (.ok (), m') ∧
        Copied K template obj attrs ks vs base (done ++ [(key, value)]) (members ++ [member]) m'.heap ∧
        Altered (DictObject.Parts attrs ks vs) m.heap m'.heap := by
  have sound := copied.sound
  have key_live : m.heap.Element key := (source.region.persists persists).element sound.toShaped
    (source.entry_inside (e := (key, value)) (by simp [split])).1
  have absent := source.key_absent copied persists split
  obtain ⟨F, outcome, entries, altered⟩ := TableCall.exists_refines_set key member sound copied.rooted copied.table key_live element
  simp only [TableCall.onHeap] at outcome entries altered
  generalize (DictObject.set attrs key member).run m = result at outcome entries altered ⊢
  cases outcome with
  | refused effect =>
    rw [TableCall.onEntries, absent] at effect
    cases effect
  | noRoom _ memory _ => exact .inl ⟨_, _, rfl, memory⟩
  | @done _ m' effect =>
    rw [TableCall.onEntries, absent] at effect
    cases effect
    have values : ((done.map Prod.fst).zip members ++ [(key, member)]).map Prod.snd = members ++ [member] := by
      rw [List.map_append, copied.map_snd_table]
      rfl
    refine .inr ⟨m', rfl, ⟨altered.sound, ?_, altered.roots ▸ copied.kept, ?_, ?_, ?_, fun x outside => ?_⟩, altered⟩
    · have other := copied.not_part copied.made (by simp [Payload.tag]) (by simp [Payload.tag])
      have shown := altered.kept obj other (rooted_of_inFlight copied.kept)
      rw [content?_of_record copied.made (by simp [Payload.tag]) (by simp [Payload.tag])] at shown
      exact (find?_of_record shown).1
    · rw [altered.toUpkeep.collectionRoots]
      exact copied.roots
    · rw [List.map_append, List.zip_append (by simp [copied.length_eq])]
      exact entries
    · rw [List.map_append]
      refine members_persist (List.rel_append copied.bound (.cons bound .nil)) fun x held r found => ?_
      have live : m'.heap.Element x := altered.sound.toShaped.element_of_ref entries.vals (by rw [values]; exact held)
      -- the new member is in the table only now, so it may be that the roots did not lead to it
      exact copied.find?_altered altered live found (by simp [Payload.tag]) (by simp [Payload.tag]) (by simp [Payload.tag])
    · have before := copied.once x outside
      rw [List.count_append, List.count_singleton]
      split_ifs with same
      · obtain rfl := eq_of_beq same
        have absent := List.count_eq_zero.2 (new outside)
        omega
      · exact before

/-- After a store the region persists if the roots lead to it, or if there was no
collection. -/
theorem Source.persists_stored (source : Source K template E attrs ks vs base)
    (copied : Copied K template obj attrs ks vs base done members m.heap) (persists : Persists K base m.heap)
    (altered : Altered (DictObject.Parts attrs ks vs) m.heap m'.heap)
    (steps : Machine.Steps Machine.NoCalls true false m m')
    (safe : (∀ x, K x → base.Rooted x) ∨ m'.heap.collections = m.heap.collections) : Persists K base m'.heap := by
  intro x inside
  have apart : ¬ DictObject.Parts attrs ks vs x := fun part => source.apart x part inside
  have element := source.region.element source.sound.toShaped inside
  rw [← persists x inside]
  rcases safe with led | uncollected
  · exact altered.kept x apart (copied.anchored source.sound (persists.mono source.anchored) ⟨led x inside, element⟩).1
  · obtain ⟨p, found, kind⟩ := (source.region.persists persists).element copied.sound.toShaped inside
    obtain ⟨q, found', tag⟩ := steps.lasting copied.sound.accounted uncollected found kind
    obtain ⟨content, shown⟩ := altered.sound.element_iff.1 ⟨q, found', tag ▸ kind⟩
    rw [shown, altered.old x content apart shown]

/-- After the last store, which may collect whatever it likes, nothing is read from the
class any more: what the roots led to persists, and of the region what is still live. -/
theorem Source.persists_last (source : Source K template E attrs ks vs base)
    (copied : Copied K template obj attrs ks vs base done members h) (persists : Persists K base h)
    (altered : Altered (DictObject.Parts attrs ks vs) h g) :
    Persists base.Anchored base g ∧ ∀ x, K x → g.Element x → g.content? x = base.content? x := by
  have apart : ∀ {x}, K x → ¬ DictObject.Parts attrs ks vs x := fun inside part => source.apart _ part inside
  constructor
  · intro x anchored
    have still := copied.anchored source.sound (persists.mono source.anchored) anchored
    rw [altered.kept x (apart (source.anchored x anchored)) still.1, persists x (source.anchored x anchored)]
  · intro x inside live
    obtain ⟨content, shown⟩ := altered.sound.element_iff.1 live
    rw [shown, ← persists x inside, altered.old x content (apart inside) shown]

/-- The first member is bound within the loop. -/
theorem collections_bindMembers_succ (obj attrs : Handle) (count : Nat) {i : Nat}
    (read : (DictObject.entry template.attrs i).run m = (.ok (key, value), m')) :
    m.heap.collections ≤ m'.heap.collections ∧
      m'.heap.collections ≤ ((bindMember obj value).run m').2.heap.collections ∧
      ((bindMember obj value).run m').2.heap.collections ≤
        ((bindMembers template.attrs attrs obj (count + 1) i).run m).2.heap.collections := by
  have entry : Machine.Steps Machine.NoCalls true true m _ := DictObject.takes_entry template.attrs i m
  have binding : Machine.Steps Machine.NoCalls true true m' _ := takes_bindMember obj value m'
  have storing : ∀ member, Takes Machine.NoCalls true true (if count = 0 then pure () else do
      DictObject.set attrs key member
      bindMembers template.attrs attrs obj count (i + 1)) := by
    intro member
    split
    · exact takes_pure _
    · exact (DictObject.takes_set _ _ _).bind fun _ => takes_bindMembers _ _ _ _ _
  rw [read] at entry
  rw [bindMembers, run_bind_ok read]
  exact ⟨entry.collections_le, binding.collections_le, collections_le_bind storing m'⟩

/-- The whole loop. -/
theorem run_copyMembers (source : Source K template E attrs ks vs base)
    (copied : Copied K template obj attrs ks vs base done members m.heap) (persists : Persists K base m.heap)
    (split : E = done ++ rest)
    (safe : (∀ x, K x → base.Rooted x) ∨
      ((bindMembers template.attrs attrs obj rest.length done.length).run m).2.heap.collections = m.heap.collections) :
    (∃ e m', (copyMembers template.attrs attrs obj rest.length done.length).run m = (.error e, m') ∧ e.kind = .memory) ∨
      ∃ all m', (copyMembers template.attrs attrs obj rest.length done.length).run m = (.ok (), m') ∧
        Copied K template obj attrs ks vs base E all m'.heap ∧ Persists base.Anchored base m'.heap ∧
        ∀ x, K x → m'.heap.Element x → m'.heap.content? x = base.content? x := by
  induction rest generalizing done members m with
  | nil =>
    rw [List.append_nil] at split
    subst split
    exact .inr ⟨members, m, rfl, copied, persists.mono source.anchored, fun x inside _ => persists x inside⟩
  | cons e rest ih =>
    obtain ⟨key, value⟩ := e
    have inside : K value := (source.entry_inside (e := (key, value)) (by simp [split])).2
    have here : E[done.length]? = some (key, value) := by simp [split]
    obtain ⟨keys, vals, has⟩ := source.hasEntries persists
    obtain ⟨m₁, read, glanced⟩ := DictObject.run_entry copied.sound has here
    have copied₁ := copied.glanced glanced
    have persists₁ := persists.trans (glanced.persists copied.sound K)
    obtain ⟨reading, binding, bound_first⟩ := collections_bindMembers_succ obj attrs rest.length read
    rw [List.length_cons] at safe ⊢
    have safe₁ := safe.imp_right fun same : _ = m.heap.collections =>
      (by omega : ((bindMember obj value).run m₁).2.heap.collections = m₁.heap.collections)
    rw [copyMembers, run_bind_ok read]
    rw [bindMembers, run_bind_ok read] at safe
    -- a member is bound, then stored; what is still to be copied must outlive both
    rcases run_bindMember source copied₁ persists₁ inside safe₁ with
      ⟨e, m', failed, memory⟩ | ⟨member, m₂, ran₂, copied₂, persists₂, element, bound, new⟩
    · exact .inl ⟨e, m', run_bind_error failed, memory⟩
    rw [run_bind_ok ran₂] at safe ⊢
    rw [ran₂] at binding
    replace binding : m₁.heap.collections ≤ m₂.heap.collections := binding
    rcases run_storeMember source copied₂ persists₂ split element bound new with
      ⟨e, m', failed, memory⟩ | ⟨m₃, ran₃, copied₃, altered⟩
    · exact .inl ⟨e, m', run_bind_error failed, memory⟩
    have next : E = (done ++ [(key, value)]) ++ rest := by simp [split]
    have count : (done ++ [(key, value)]).length = done.length + 1 := by simp
    rw [run_bind_ok ran₃, ← count]
    by_cases last : rest.length = 0
    · obtain rfl := List.length_eq_zero_iff.1 last
      have whole : E = done ++ [(key, value)] := by rw [next, List.append_nil]
      exact .inr ⟨members ++ [member], m₃, rfl, whole ▸ copied₃, source.persists_last copied₂ persists₂ altered⟩
    · have steps : Machine.Steps Machine.NoCalls true false m₂ _ := DictObject.takes_set attrs key member m₂
      rw [if_neg last, run_bind_ok ran₃, ← count] at safe
      rw [ran₃] at steps
      have stored : m₂.heap.collections ≤ m₃.heap.collections := steps.collections_le
      have ahead : m₃.heap.collections ≤ _ := (takes_bindMembers template.attrs attrs obj rest.length
        (done ++ [(key, value)]).length m₃ : Machine.Steps Machine.NoCalls true true m₃ _).collections_le
      have persists₃ := source.persists_stored copied₂ persists₂ altered steps (safe.imp_right fun same => by omega)
      exact ih copied₃ persists₃ next (safe.imp_right fun same => by omega)

end Copying

/-! ### The instance -/

/-- The instance `obj` of a class with record `template` and members `E`, ready for
`__init__`. -/
structure Built (template : ClassRecord) (E : List (Handle × Handle)) (obj attrs : Handle) (members : List Handle)
    (before after : Heap) : Prop where
  /-- It has the name and the bases of the class, and a table of its own. -/
  made : after.find? obj = some (.inst { template with attrs := attrs })
  own : attrs ≠ template.attrs
  fresh : ¬ before.Anchored obj ∧ ¬ before.Anchored attrs
  kept : obj ∈ after.roots.inFlight
  /-- The keys of the table are those of the class, in the same order. -/
  table : after.Tabulates attrs ((E.map Prod.fst).zip members)
  bound : List.Forall₂ (Member before.Anchored before after obj) (E.map Prod.snd) members
  once : ∀ x value, after.find? x = some (.method ⟨value, obj⟩) → members.count x ≤ 1
  /-- The keys and the values of the class are live, and show what they showed. -/
  same : ∀ x, x ∈ E.map Prod.fst ∨ x ∈ E.map Prod.snd → after.Element x ∧ after.content? x = before.content? x
  /-- So does everything that the roots led to. -/
  still : ∀ x, before.Anchored x → after.content? x = before.content? x

section Assembling

variable {K : Handle → Prop} {base h : Heap} {E : List (Handle × Handle)} {members : List Handle} {x : Handle}

theorem Copied.key_live (copied : Copied K template obj attrs ks vs base E members h) (key : x ∈ E.map Prod.fst) :
    h.Element x := by
  refine copied.sound.toShaped.element_of_ref copied.table.keys ?_
  rw [List.map_fst_zip (by simp [copied.length_eq])]
  exact key

/-- A value of the class is a member of the instance, or there is a method for it. -/
theorem Copied.value_live (copied : Copied K template obj attrs ks vs base E members h) (value : x ∈ E.map Prod.snd) :
    h.Element x := by
  obtain ⟨y, member, bound⟩ := exists_member copied.bound value
  cases bound with
  | plain => exact (copied.anchored_member member).2
  | method _ _ method => exact copied.sound.toShaped.refs y _ method x List.mem_cons_self

/-- The keys differ as they did in the class. -/
theorem Copied.distinct (copied : Copied K template obj attrs ks vs base E members h)
    (source : Source K template E attrs ks vs base) (same : ∀ x, K x → h.Element x → h.content? x = base.content? x) :
    ((E.map Prod.fst).zip members).Pairwise fun e f => h.compare e.1 f.1 = .ok .differ := by
  -- what is live of the region is a region
  have region : base.Region fun x => K x ∧ h.Element x := by
    rintro x ⟨inside, live⟩
    obtain ⟨content, shown, refs⟩ := source.region x inside
    refine ⟨content, shown, fun y ref => ⟨refs y ref, ?_⟩⟩
    exact copied.sound.toShaped.element_of_ref ((same x inside live).trans shown) ref
  have persists : Persists (fun x => K x ∧ h.Element x) base h := fun x part => same x part.1 part.2
  have keys : ((E.map Prod.fst).zip members).map Prod.fst = E.map Prod.fst := List.map_fst_zip (by simp [copied.length_eq])
  have before : (E.map Prod.fst).Pairwise fun a b => base.compare a b = .ok .differ := List.pairwise_map.2 source.distinct
  rw [← keys] at before
  refine (List.pairwise_map.1 before).imp_of_mem fun {e f} left right differ => ?_
  have part : ∀ {e}, e ∈ (E.map Prod.fst).zip members → K e.1 ∧ h.Element e.1 := by
    intro e entry
    have key : e.1 ∈ E.map Prod.fst := (List.of_mem_zip entry).1
    obtain ⟨e', member, same⟩ := List.mem_map.1 key
    exact ⟨same ▸ (source.entry_inside member).1, copied.key_live key⟩
  rw [region.compare persists source.sound copied.sound (part left) (part right), differ]

/-- When all members have been copied, what is left of the region is intact. -/
theorem Copied.built (copied : Copied K template obj attrs ks vs base E members h) (source : Source K template E attrs ks vs base)
    (outside : ¬ K obj) (still : Persists base.Anchored base h)
    (same : ∀ x, K x → h.Element x → h.content? x = base.content? x) : Built template E obj attrs members base h := by
  have fresh : ∀ x, ¬ K x → ¬ base.Anchored x := fun x out anchored => out (source.anchored x anchored)
  constructor
  · exact copied.made
  · rintro rfl
    exact source.apart _ (.inl rfl) source.inside
  · exact ⟨fresh obj outside, fresh attrs (source.apart attrs (.inl rfl))⟩
  · exact copied.kept
  · exact copied.table.tabulates (copied.distinct source same)
  · refine copied.bound.imp fun value member bound => ?_
    cases bound with
    | plain other => exact .plain other
    | method function new method => exact .method function (fresh _ new) method
  · intro x value method
    by_cases inside : K x
    · -- an object of the region does not refer to the instance
      obtain ⟨content, shown, refs⟩ := source.region x inside
      rw [← same x inside ⟨_, method, by simp [Payload.tag]⟩,
        content?_of_record method (by simp [Payload.tag]) (by simp [Payload.tag])] at shown
      cases shown
      exact absurd (refs obj (by simp [Content.refs, Payload.refs, Payload.children])) outside
    · exact copied.once x inside
  · rintro x (key | value)
    · obtain ⟨e, member, rfl⟩ := List.mem_map.1 key
      exact ⟨copied.key_live key, same _ (source.entry_inside member).1 (copied.key_live key)⟩
    · obtain ⟨e, member, rfl⟩ := List.mem_map.1 value
      exact ⟨copied.value_live value, same _ (source.entry_inside member).2 (copied.value_live value)⟩
  · exact still

/-- An instance is assembled, or there is no room for it. The region `K` holds the
table of the class: it is spared if the roots lead to it, or if there is no collection
before the last member has been bound. -/
theorem run_assemble_within (sound : m.heap.Sound none) (read : m.heap.templateRecord cls = .ok template)
    (table : m.heap.Tabulates template.attrs E) (region : m.heap.Region K) (wider : ∀ x, m.heap.Anchored x → K x)
    (narrower : ∀ x, K x → m.heap.Within (Payload.inst template).children x) (inside : K template.attrs)
    (safe : (∀ x, K x → m.heap.Rooted x) ∨ ∀ obj attrs m₀, (equip template).run (entering cls m) = (.ok (obj, attrs), m₀) →
      ((bindMembers template.attrs attrs obj E.length 0).run m₀).2.heap.collections = m₀.heap.collections) :
    (∃ e m', (assemble template).run (entering cls m) = (.error e, m') ∧ e.kind = .memory) ∨
      ∃ obj attrs members m', (assemble template).run (entering cls m) = (.ok (obj, attrs), m') ∧ m'.heap.Sound none ∧
        Built template E obj attrs members m.heap m'.heap := by
  have found := templateRecord_eq_ok_iff.1 read
  have entered : (entering cls m).heap.Sound none := sound.rerooted fun x member =>
    sound.roots x (List.mem_append_left _ (List.mem_append_left _ member))
  rcases run_equip entered (sound.refs cls (.cls template) found) with ⟨e, m', failed, memory⟩ |
    ⟨obj, attrs, ks, vs, m₀, ran, equipped⟩
  · exact .inl ⟨e, m', by rw [assemble_eq, run_bind_error failed], memory⟩
  -- the new object and its table are outside `K`, and making them leaves `K` as it was
  have persists : Persists K m.heap m₀.heap := fun x member =>
    (equipped.persists x (narrower x member)).trans (sound.toShaped.content?_rerooted _ x)
  have source : Source K template E attrs ks vs m.heap :=
    { sound := sound
      region := region
      anchored := wider
      inside := inside
      table := table.hasEntries
      distinct := table.distinct
      apart := by
        rintro x part member
        refine equipped.fresh x ?_ (narrower x member)
        rcases part with rfl | rfl | rfl <;> simp }
  have copied : Copied K template obj attrs ks vs m.heap [] [] m₀.heap :=
    { sound := equipped.sound
      made := equipped.made
      kept := equipped.kept
      roots := equipped.roots
      table := equipped.table
      bound := .nil
      once := fun x _ => by simp }
  obtain ⟨keys, vals, has⟩ := source.hasEntries persists
  have counted : (inspect fun h => h.dictLength template.attrs).run m₀ = (.ok E.length, m₀) := by
    rw [run_inspect, dictLength, dictRecord_eq_ok_iff.2 has.find?]
    rfl
  have whole : (assemble template).run (entering cls m) =
      (do
        copyMembers template.attrs attrs obj E.length 0
        return (obj, attrs)).run m₀ := by
    rw [assemble_eq, run_bind_ok ran]
    exact run_bind_ok counted
  rcases run_copyMembers source copied persists (List.nil_append E).symm (safe.imp_right fun still => still obj attrs m₀ ran) with
    ⟨e, m', failed, memory⟩ | ⟨members, m', done, all, still, same⟩
  · exact .inl ⟨e, m', whole.trans (run_bind_error failed), memory⟩
  · refine .inr ⟨obj, attrs, members, m', whole.trans (run_bind_ok done), all.sound, all.built source ?_ still same⟩
    exact fun member => equipped.fresh obj List.mem_cons_self (narrower obj member)

/-- The roots lead to the table of the class, or there is no collection while the
members are bound. -/
def Spared (template : ClassRecord) (cls : Handle) (count : Nat) (m : Machine) : Prop :=
  m.heap.Rooted template.attrs ∨ ∀ obj attrs m₀, (equip template).run (entering cls m) = (.ok (obj, attrs), m₀) →
    ((bindMembers template.attrs attrs obj count 0).run m₀).2.heap.collections = m₀.heap.collections

theorem run_assemble (sound : m.heap.Sound none) (read : m.heap.templateRecord cls = .ok template)
    (table : m.heap.Tabulates template.attrs E) (spared : Spared template cls E.length m) :
    (∃ e m', (assemble template).run (entering cls m) = (.error e, m') ∧ e.kind = .memory) ∨
      ∃ obj attrs members m', (assemble template).run (entering cls m) = (.ok (obj, attrs), m') ∧ m'.heap.Sound none ∧
        Built template E obj attrs members m.heap m'.heap := by
  have shaped := sound.toShaped
  have element : m.heap.Element template.attrs := by
    obtain ⟨ks, vs, has⟩ := table.hasEntries
    exact has.element
  rcases spared with rooted | uncollected
  · exact run_assemble_within sound read table (shaped.region_within []) (fun _ anchored => anchored)
      (fun _ anchored => Anchored.within anchored _) ⟨rooted, element⟩ (.inl fun _ anchored => anchored.1)
  · refine run_assemble_within sound read table (shaped.region_within _) (fun _ anchored => anchored.within _)
      (fun _ within => within) ⟨.start ?_, element⟩ (.inr uncollected)
    exact List.mem_append_right _ (by simp [Payload.children])

end Assembling

/-! ### The call of `__init__` -/

/-- From `m` an instantiation ends as `op` does from `m'`, apart from reports, and leaves
the construction. -/
def EndsAs (call : Interpreter) (cls : Handle) (m m' : Machine) (op : HeapM Handle) : Prop :=
  ∃ log, (instantiate call cls).run m = ((op.run m').1,
    Machine.mapRoots ⟨(op.run m').2.heap, log⟩ fun r => r.leave m.heap.roots.inFlight.length)

/-- How an instantiation goes on from `m'`, where the instance `obj` has `members` for
the members `E` of its class. The first two cases do not depend on the interpreter. -/
structure Concludes (cls obj : Handle) (E : List (Handle × Handle)) (members : List Handle) (m m' : Machine) : Prop where
  absent : (∀ key ∈ E.map Prod.fst, m.heap.find? key ≠ some (.str "__init__")) → ∀ call, EndsAs call cls m m' (pure obj)
  refused : ∀ (i : Nat) (key init : Handle), (E.map Prod.fst)[i]? = some key → m.heap.find? key = some (.str "__init__") →
    members[i]? = some init → (∀ r, m'.heap.find? init ≠ some (.method r)) →
    ∀ call, EndsAs call cls m m' (throw .initNotMethod)
  /-- A method is called once, without arguments of its own. -/
  called : ∀ (i : Nat) (key init : Handle) (r : MethodRecord), (E.map Prod.fst)[i]? = some key →
    m.heap.find? key = some (.str "__init__") → members[i]? = some init → m'.heap.find? init = some (.method r) →
    ∀ call, EndsAs call cls m m' (do
      let _ ← call init []
      return obj)

section Concluding

variable {E : List (Handle × Handle)} {members : List Handle} {m₁ m₂ : Machine} {e : Error}

theorem endsAs_finish (call : Interpreter) {made : Handle × Option Handle} (read : m.heap.templateRecord cls = .ok template)
    (prepared : (prepare template).run (entering cls m) = (.ok made, m')) : EndsAs call cls m m' (finish call made) := by
  obtain ⟨log, whole⟩ := run_instantiate call read
  rw [run_bind_ok prepared] at whole
  exact ⟨log, whole⟩

theorem endsAs_throw (call : Interpreter) (read : m.heap.templateRecord cls = .ok template)
    (failed : (prepare template).run (entering cls m) = (.error e, m')) : EndsAs call cls m m' (throw e) := by
  obtain ⟨log, whole⟩ := run_instantiate call read
  rw [run_bind_error failed] at whole
  exact ⟨log, whole⟩

theorem EndsAs.result {call : Interpreter} {op : HeapM Handle} (ends : EndsAs call cls m m' op) :
    ((instantiate call cls).run m).1 = (op.run m').1 := by
  obtain ⟨log, whole⟩ := ends
  rw [whole]

theorem Built.length_eq {before after : Heap} (built : Built template E obj attrs members before after) :
    (E.map Prod.fst).length = members.length := by
  rw [List.length_map, ← List.length_map (f := Prod.snd), built.bound.length_eq]

theorem Built.member_live {before after : Heap} {x : Handle} (built : Built template E obj attrs members before after)
    (sound : after.Sound none) (member : x ∈ members) : after.Element x := by
  obtain ⟨ks, vs, has⟩ := built.table.hasEntries
  refine sound.toShaped.element_of_ref has.vals ?_
  rw [List.map_snd_zip (Nat.le_of_eq built.length_eq.symm)]
  exact member

/-- The lookup of `__init__` finds the member at the position of the one key that is
this string, if there is one. -/
theorem Built.run_lookup (built : Built template E obj attrs members m.heap m₁.heap) (sound : m.heap.Sound none)
    (sound₁ : m₁.heap.Sound none) (distinct : E.Pairwise fun e f => m.heap.compare e.1 f.1 = .ok .differ) :
    ∃ found m₂, (DictObject.lookupText attrs "__init__").run m₁ = (.ok found, m₂) ∧ Glanced m₁.heap m₂.heap ∧
      ((∀ key ∈ E.map Prod.fst, m.heap.find? key ≠ some (.str "__init__")) → found = none) ∧
      ∀ (i : Nat) (key : Handle), (E.map Prod.fst)[i]? = some key → m.heap.find? key = some (.str "__init__") →
        found = members[i]? := by
  obtain ⟨ks, vs, has⟩ := built.table.hasEntries
  have keys : ((E.map Prod.fst).zip members).map Prod.fst = E.map Prod.fst := List.map_fst_zip (Nat.le_of_eq built.length_eq)
  have vals : ((E.map Prod.fst).zip members).map Prod.snd = members := List.map_snd_zip (Nat.le_of_eq built.length_eq.symm)
  have element : ∀ key ∈ E.map Prod.fst, m.heap.Element key := by
    intro key member
    obtain ⟨live, same⟩ := built.same key (.inl member)
    obtain ⟨content, shown⟩ := sound₁.element_iff.1 live
    exact sound.element_iff.2 ⟨content, same.symm.trans shown⟩
  have tested : ∀ key ∈ E.map Prod.fst, m₁.heap.strEquals key "__init__" = m.heap.strEquals key "__init__" :=
    fun key member => strEquals_congr sound.toShaped (element key member) (built.same key (.inl member)).2
  have steady : ∀ g, Glanced m₁.heap g → ∀ x ∈ ((E.map Prod.fst).zip members).map Prod.fst,
      g.strEquals x "__init__" = m₁.heap.strEquals x "__init__" := by
    intro g glanced x member
    rw [keys] at member
    exact strEquals_congr sound₁.toShaped (built.same x (.inl member)).1 (glanced.content? sound₁ x)
  obtain ⟨m₂, looked, glanced⟩ := DictObject.run_lookupBy sound₁ has steady
  rw [keys, vals, search_congr tested] at looked
  have apart : (E.map Prod.fst).Pairwise fun a b => m.heap.compare a b = .ok .differ := List.pairwise_map.2 distinct
  by_cases somewhere : ∃ (i : Nat) (key : Handle), (E.map Prod.fst)[i]? = some key ∧ m.heap.find? key = some (.str "__init__")
  · obtain ⟨i, key, here, string⟩ := somewhere
    have position := search_of_str sound element apart here string
    rw [position] at looked
    refine ⟨members[i]?, m₂, looked, glanced, fun nowhere => ?_, fun j other there string' => ?_⟩
    · exact absurd string (nowhere key (List.mem_of_getElem? here))
    · have same := search_of_str sound element apart there string'
      rw [position] at same
      cases same
      rfl
  · have none := search_of_no_str element fun key member string => by
      obtain ⟨i, here⟩ := List.mem_iff_getElem?.1 member
      exact somewhere ⟨i, key, here, string⟩
    rw [none] at looked
    exact ⟨_, m₂, looked, glanced, fun _ => rfl, fun i key here string => absurd ⟨i, key, here, string⟩ somewhere⟩

/-- From the lookup of `__init__` on. -/
theorem Built.concludes (built : Built template E obj attrs members m.heap m₁.heap) (sound : m.heap.Sound none)
    (sound₁ : m₁.heap.Sound none) (distinct : E.Pairwise fun e f => m.heap.compare e.1 f.1 = .ok .differ)
    (read : m.heap.templateRecord cls = .ok template)
    (ran : (assemble template).run (entering cls m) = (.ok (obj, attrs), m₁)) :
    ∃ m₂, Glanced m₁.heap m₂.heap ∧ Concludes cls obj E members m m₂ := by
  obtain ⟨found, m₂, looked, glanced, absent, present⟩ := built.run_lookup sound sound₁ distinct
  have sound₂ := glanced.sound none sound₁
  refine ⟨m₂, glanced, ?_⟩
  constructor
  · intro nowhere call
    obtain rfl := absent nowhere
    have prepared : (prepare template).run (entering cls m) = (.ok (obj, none), m₂) := by
      rw [prepare, run_bind_ok ran, run_bind_ok looked]
      rfl
    exact endsAs_finish call read prepared
  · intro i key init here string member other call
    obtain rfl : found = some init := (present i key here string).trans member
    obtain ⟨p, live, -⟩ := glanced.element (built.member_live sound₁ (List.mem_of_getElem? member))
    have tagged : (inspect fun h => h.tagOf init).run m₂ = (.ok p.tag, m₂) := by
      refine run_inspect_ok ?_
      rw [sound₂.headed.tagOf_eq, payload_eq_ok_iff.2 live]
      rfl
    have kind : p.tag ≠ .method := by
      intro tag
      cases p with
      | method r => exact other r live
      | _ => cases tag
    have failed : (prepare template).run (entering cls m) = (.error .initNotMethod, m₂) := by
      rw [prepare, run_bind_ok ran, run_bind_ok looked]
      refine (run_bind_ok tagged).trans ?_
      rw [if_neg kind]
      rfl
    exact endsAs_throw call read failed
  · intro i key init r here string member method call
    obtain rfl : found = some init := (present i key here string).trans member
    have tagged : (inspect fun h => h.tagOf init).run m₂ = (.ok .method, m₂) := by
      refine run_inspect_ok ?_
      rw [sound₂.headed.tagOf_eq, payload_eq_ok_iff.2 method]
      rfl
    have prepared : (prepare template).run (entering cls m) = (.ok (obj, some init), m₂) := by
      rw [prepare, run_bind_ok ran, run_bind_ok looked]
      exact run_bind_ok tagged
    exact endsAs_finish call read prepared

/-- Without room for the instance, that is the outcome. -/
theorem result_of_unassembled (read : m.heap.templateRecord cls = .ok template)
    (failed : (assemble template).run (entering cls m) = (.error e, m')) (call : Interpreter) :
    ((instantiate call cls).run m).1 = .error e := by
  have unprepared : (prepare template).run (entering cls m) = (.error e, m') := by
    rw [prepare, run_bind_error failed]
  exact (endsAs_throw call read unprepared).result

/-- **Instantiation builds the right instance.** In a sound heap, for a class that the
roots lead to and whose keys differ from each other, an instantiation runs out of
memory, or else: where `__init__` is looked up, there is an instance with the name and
the bases of the class and a new table, which has the keys of the class in the same
order, with its members or methods made for them; all that the roots led to is
unchanged; and from there on the interpreter is called exactly once, on the method
that is there for `__init__`, or not at all. -/
theorem instantiate_builds (sound : m.heap.Sound none) (rooted : m.heap.Rooted cls)
    (read : m.heap.templateRecord cls = .ok template) (table : m.heap.Tabulates template.attrs E) :
    (∃ e, e.kind = .memory ∧ ∀ call, ((instantiate call cls).run m).1 = .error e) ∨
      ∃ obj attrs members m₁ m₂, (assemble template).run (entering cls m) = (.ok (obj, attrs), m₁) ∧
        Built template E obj attrs members m.heap m₁.heap ∧ Glanced m₁.heap m₂.heap ∧ obj ∈ m₂.heap.roots.inFlight ∧
        Concludes cls obj E members m m₂ := by
  have attrs : m.heap.Rooted template.attrs :=
    reaches_edge rooted (templateRecord_eq_ok_iff.1 read) (by simp [Payload.children])
  rcases run_assemble sound read table (.inl attrs) with ⟨e, m', failed, memory⟩ |
    ⟨obj, attrs, members, m₁, ran, sound₁, built⟩
  · exact .inl ⟨e, memory, result_of_unassembled read failed⟩
  · obtain ⟨m₂, glanced, concludes⟩ := built.concludes sound sound₁ table.distinct read ran
    exact .inr ⟨obj, attrs, members, m₁, m₂, ran, built, glanced, glanced.roots ▸ built.kept, concludes⟩

/-- A heap for a class with two members, one of them a function, and an instance of it. -/
def frugal : HeapConfig := { arenaBytes := 220, maxChunkBytes := 64 }

/-- Make the class: the name, the function for `__init__`, the table with its entries,
the bases. -/
def drafting : List Call :=
  [.create (.str "__init__"), .pushRoot ⟨4⟩, .create (.function ⟨4⟩ (.native 0)), .pushRoot ⟨5⟩, .create .dict,
    .pushRoot ⟨8⟩, .update (.dictSet ⟨8⟩ ⟨4⟩ ⟨5⟩), .create (.str "size"), .pushRoot ⟨11⟩,
    .update (.dictSet ⟨8⟩ ⟨11⟩ ⟨3⟩), .create (.tuple []), .pushRoot ⟨12⟩, .create (.cls ⟨11⟩ ⟨8⟩ ⟨12⟩), .pushRoot ⟨13⟩]

/-- The class is made, then `more` is done. -/
abbrev drafted (more : List Call) : Machine :=
  Client.ended frugal (drafting ++ more)

abbrev drafts : ClassRecord := ⟨⟨11⟩, ⟨8⟩, ⟨12⟩⟩

/-- The function for `__init__`, and a member that is none. -/
abbrev draftEntries : List (Handle × Handle) := [(⟨4⟩, ⟨5⟩), (⟨11⟩, ⟨3⟩)]

/-- The instance is built, and its `__init__` run. -/
theorem instantiate_builds_drafted :
    (drafted []).heap.Sound none ∧ (drafted []).heap.Rooted ⟨13⟩ ∧ (drafted []).heap.templateRecord ⟨13⟩ = .ok drafts ∧
      (drafted []).heap.Tabulates ⟨8⟩ draftEntries ∧
      ((instantiate Client.tidying ⟨13⟩).run (drafted [])).1 = .ok ⟨14⟩ ∧
      ∃ obj attrs members m₁ m₂, (assemble drafts).run (entering ⟨13⟩ (drafted [])) = (.ok (obj, attrs), m₁) ∧
        Built drafts draftEntries obj attrs members (drafted []).heap m₁.heap ∧ Glanced m₁.heap m₂.heap ∧
        obj ∈ m₂.heap.roots.inFlight ∧ Concludes ⟨13⟩ obj draftEntries members (drafted []) m₂ := by
  have sound : (drafted []).heap.Sound none := (Client.regular_ended (by decide +kernel)).sound
  have rooted : (drafted []).heap.Rooted ⟨13⟩ := .start (by decide +kernel)
  have read : (drafted []).heap.templateRecord ⟨13⟩ = .ok drafts := by decide +kernel
  have table : (drafted []).heap.Tabulates ⟨8⟩ draftEntries := by
    constructor
    · decide +kernel
    · exact ⟨⟨2, ⟨6⟩, ⟨7⟩⟩, by decide +kernel⟩
    · decide +kernel
  have result : ((instantiate Client.tidying ⟨13⟩).run (drafted [])).1 = .ok ⟨14⟩ := by decide +kernel
  rcases instantiate_builds sound rooted read table with ⟨e, -, failed⟩ | built
  · rw [failed] at result
    cases result
  · exact ⟨sound, rooted, read, table, result, built⟩

/-- Every instantiation that gets so far ends in one of the three ways. -/
theorem Concludes.outcome (concludes : Concludes cls obj E members m m') (length : (E.map Prod.fst).length = members.length)
    (call : Interpreter) :
    ((instantiate call cls).run m).1 = .ok obj ∨ ((instantiate call cls).run m).1 = .error .initNotMethod ∨
      ∃ init e, ((call init []).run m').1 = .error e ∧ ((instantiate call cls).run m).1 = .error e := by
  by_cases somewhere : ∃ (i : Nat) (key : Handle), (E.map Prod.fst)[i]? = some key ∧ m.heap.find? key = some (.str "__init__")
  · obtain ⟨i, key, here, string⟩ := somewhere
    have inside : i < members.length := length ▸ (List.getElem?_eq_some_iff.1 here).1
    have member : members[i]? = some members[i] := List.getElem?_eq_getElem inside
    by_cases method : ∃ r, m'.heap.find? members[i] = some (.method r)
    · obtain ⟨r, method⟩ := method
      have result := (concludes.called i key _ r here string member method call).result
      rw [result, run_bind]
      rcases ran : (call members[i] []).run m' with ⟨e | y, m''⟩
      · exact .inr (.inr ⟨members[i], e, by rw [ran], rfl⟩)
      · exact .inl rfl
    · have other : ∀ r, m'.heap.find? members[i] ≠ some (.method r) := fun r found => method ⟨r, found⟩
      exact .inr (.inl (concludes.refused i key _ here string member other call).result)
  · refine .inl (concludes.absent (fun key member string => ?_) call).result
    obtain ⟨i, here⟩ := List.mem_iff_getElem?.1 member
    exact somewhere ⟨i, key, here, string⟩

/-- **The class needs no root.** It is enough that the roots lead to its table, or that
there is no collection between the moment when the instance has a table of its own and
the one when its last member has been bound. Then an instantiation runs out of memory,
or else: the instance has the keys of the class, with its members or methods made for
them, all of them live; the only other error that the instantiation reports of its own
is that `__init__` is not a method; and a function that the class has for `__init__`
is run. -/
theorem instantiate_spared (sound : m.heap.Sound none) (read : m.heap.templateRecord cls = .ok template)
    (table : m.heap.Tabulates template.attrs E) (spared : Spared template cls E.length m) :
    (∃ e, e.kind = .memory ∧ ∀ call, ((instantiate call cls).run m).1 = .error e) ∨
      ∃ obj attrs members m₁ m₂, (assemble template).run (entering cls m) = (.ok (obj, attrs), m₁) ∧
        Built template E obj attrs members m.heap m₁.heap ∧ (∀ x ∈ E.map Prod.fst ++ members, m₁.heap.isLive x = true) ∧
        ∀ call : Interpreter,
          (((instantiate call cls).run m).1 = .ok obj ∨ ((instantiate call cls).run m).1 = .error .initNotMethod ∨
            ∃ init e, ((call init []).run m₂).1 = .error e ∧ ((instantiate call cls).run m).1 = .error e) ∧
          ∀ (i : Nat) (key value : Handle) (r : FunctionRecord), E[i]? = some (key, value) →
            m.heap.find? key = some (.str "__init__") → m.heap.find? value = some (.function r) →
            ∃ init, members[i]? = some init ∧ m₁.heap.find? init = some (.method ⟨value, obj⟩) ∧
              EndsAs call cls m m₂ (do
                let _ ← call init []
                return obj) := by
  rcases run_assemble sound read table spared with ⟨e, m', failed, memory⟩ | ⟨obj, attrs, members, m₁, ran, sound₁, built⟩
  · exact .inl ⟨e, memory, result_of_unassembled read failed⟩
  · obtain ⟨m₂, glanced, concludes⟩ := built.concludes sound sound₁ table.distinct read ran
    refine .inr ⟨obj, attrs, members, m₁, m₂, ran, built, fun x held => ?_,
      fun call => ⟨concludes.outcome built.length_eq call, ?_⟩⟩
    · apply isLive_iff_find?.2
      rcases List.mem_append.1 held with key | member
      · exact (built.same x (.inl key)).1.live
      · exact (built.member_live sound₁ member).live
    · intro i key value r here string function
      have inside : i < members.length := by
        rw [← built.length_eq, List.length_map]
        exact (List.getElem?_eq_some_iff.1 here).1
      have member : members[i]? = some members[i] := List.getElem?_eq_getElem inside
      have pair : (value, members[i]) ∈ (E.map Prod.snd).zip members := by
        apply List.mem_of_getElem? (i := i)
        rw [List.getElem?_zip_eq_some]
        exact ⟨by rw [List.getElem?_map, here]; rfl, member⟩
      have bound : m₁.heap.find? members[i] = some (.method ⟨value, obj⟩) := by
        cases List.forall₂_zip built.bound pair with
        | plain other => exact absurd function (other r)
        | method _ _ method => exact method
      refine ⟨members[i], member, bound, concludes.called i key _ ⟨value, obj⟩ ?_ string member ?_ call⟩
      · rw [List.getElem?_map, here]
        rfl
      · exact glanced.find? bound (by simp [Payload.tag])

/-- The class is no longer a root, and the heap is filled up with integers. -/
abbrev dropping (count : Nat) : List Call :=
  .truncateRoots 0 :: List.replicate count (.create (.int 7))

/-- There is a collection while the instance is allocated, and none after that; the
class is freed when `__init__` is run. -/
theorem instantiate_spared_dropped :
    (drafted (dropping 8)).heap.Sound none ∧ Spared drafts ⟨13⟩ 2 (drafted (dropping 8)) ∧
      ((instantiate Client.tidying ⟨13⟩).run (drafted (dropping 8))).1 = .ok ⟨22⟩ ∧
      ((instantiate Client.tidying ⟨13⟩).run (drafted (dropping 8))).2.heap.isLive ⟨13⟩ = false ∧
      ∃ obj attrs members m₁, (assemble drafts).run (entering ⟨13⟩ (drafted (dropping 8))) = (.ok (obj, attrs), m₁) ∧
        Built drafts draftEntries obj attrs members (drafted (dropping 8)).heap m₁.heap ∧
        ∀ x ∈ draftEntries.map Prod.fst ++ members, m₁.heap.isLive x = true := by
  have sound : (drafted (dropping 8)).heap.Sound none := (Client.regular_ended (by decide +kernel)).sound
  have read : (drafted (dropping 8)).heap.templateRecord ⟨13⟩ = .ok drafts := by decide +kernel
  have table : (drafted (dropping 8)).heap.Tabulates ⟨8⟩ draftEntries := by
    constructor
    · decide +kernel
    · exact ⟨⟨2, ⟨6⟩, ⟨7⟩⟩, by decide +kernel⟩
    · decide +kernel
  have spared : Spared drafts ⟨13⟩ 2 (drafted (dropping 8)) := by
    right
    intro obj attrs m₀ ran
    have made : ((equip drafts).run (entering ⟨13⟩ (drafted (dropping 8)))).1 = .ok (⟨22⟩, ⟨20⟩) := by decide +kernel
    have after : m₀ = ((equip drafts).run (entering ⟨13⟩ (drafted (dropping 8)))).2 := by rw [ran]
    rw [ran] at made
    cases made
    rw [after]
    decide +kernel
  have result : ((instantiate Client.tidying ⟨13⟩).run (drafted (dropping 8))).1 = .ok ⟨22⟩ := by decide +kernel
  rcases instantiate_spared sound read table spared with ⟨e, -, failed⟩ | ⟨obj, attrs, members, m₁, -, ran, built, live, -⟩
  · rw [failed] at result
    cases result
  · exact ⟨sound, spared, result, by decide +kernel, obj, attrs, members, m₁, ran, built, live⟩

/-- With one integer to be freed, the collection comes when the first member is stored:
the class is freed before the second is read. -/
theorem instantiate_loses_class :
    (drafted (dropping 1)).heap.Sound none ∧ (drafted (dropping 1)).heap.templateRecord ⟨13⟩ = .ok drafts ∧
      (drafted (dropping 1)).heap.Tabulates ⟨8⟩ draftEntries ∧
      ∀ call, ((instantiate call ⟨13⟩).run (drafted (dropping 1))).1 = .error .dangling := by
  have read : (drafted (dropping 1)).heap.templateRecord ⟨13⟩ = .ok drafts := by decide +kernel
  have sound : (drafted (dropping 1)).heap.Sound none := (Client.regular_ended (by decide +kernel)).sound
  refine ⟨sound, read, ?_, fun call => ?_⟩
  · constructor
    · decide +kernel
    · exact ⟨⟨2, ⟨6⟩, ⟨7⟩⟩, by decide +kernel⟩
    · decide +kernel
  · have failed : ((assemble drafts).run (entering ⟨13⟩ (drafted (dropping 1)))).1 = .error .dangling := by decide +kernel
    exact result_of_unassembled read (Prod.ext failed rfl) call

end Concluding

end ClassObject

end ChunkHeap

import ChunkHeap.Proofs.Containers.Tables

/-!
# Making instances

The members of a class are copied to the table of the new instance one by one,
with an allocation for each function among them. `ClassObject.Filling` is the
invariant of this loop: the instance is kept and leads to its table, and the roots
lead to the table of the class around the table that is being filled. The second
part matters because a store may overwrite, so that a path through the new table
need not last.

An instantiation ends by calling `__init__`. `ClassObject.prepare` is the part
before that call.
-/

namespace ChunkHeap
set_option autoImplicit false

open HeapM Heap

namespace ClassObject

open DictObject (Parts)

variable {building : Bool} {h g : Heap} {members obj keys vals key value : Handle} {r : ClassRecord}

/-- The instance `obj` with record `r` is being filled from the table `members`;
`keys` and `vals` are the storages of its own table. -/
structure Filling (members obj keys vals : Handle) (r : ClassRecord) (h : Heap) : Prop where
  made : h.find? obj = some (.inst r)
  kept : obj ∈ h.roots.inFlight
  outside : ¬ Parts r.attrs keys vals obj
  table : ∃ n, h.find? r.attrs = some (.dict ⟨n, keys, vals⟩)
  around : Around (Parts r.attrs keys vals) h members

namespace Filling

theorem root (filling : Filling members obj keys vals r h) : obj ∈ h.collectionRoots [] := by
  simp [collectionRoots, RootSet.toList, filling.kept]

/-- The table of the instance is within reach, by way of the instance. -/
theorem attrs_rooted (filling : Filling members obj keys vals r h) : h.Rooted r.attrs :=
  reaches_edge (.start filling.root) filling.made (by simp [Payload.children])

theorem glanced (filling : Filling members obj keys vals r h) (glanced : Glanced h g) : Filling members obj keys vals r g where
  made := glanced.find? filling.made (by simp [Payload.tag])
  kept := glanced.roots ▸ filling.kept
  outside := filling.outside
  table := filling.table.imp fun _ found => glanced.find? found (by simp [Payload.tag])
  around := glanced.confined.around glanced.toUpkeep.roots_subset filling.around

/-- A store in the table of the instance. -/
theorem stored (filling : Filling members obj keys vals r h) (kept : Kept building (Parts r.attrs keys vals) h g)
    (table : ∃ n, g.find? r.attrs = some (.dict ⟨n, keys, vals⟩)) : Filling members obj keys vals r g where
  made := kept.find? (.root filling.root) filling.outside filling.made (by simp [Payload.tag])
  kept := by
    obtain ⟨more, roots, -⟩ := kept.roots
    simp [roots, filling.kept]
  outside := filling.outside
  table := table
  around := kept.around filling.around

/-- An operation that writes nothing. -/
theorem unwritten (filling : Filling members obj keys vals r h) (kept : Kept building (fun _ => False) h g) :
    Filling members obj keys vals r g := by
  refine filling.stored (kept.widen fun _ => False.elim) ?_
  obtain ⟨n, found⟩ := filling.table
  have around : Around (fun _ => False) h r.attrs :=
    .edge (.root filling.root) id filling.made (by simp [Payload.children])
  exact ⟨n, kept.find? around id found (by simp [Payload.tag])⟩

end Filling

/-- A function among the members becomes a method, which takes an allocation. -/
theorem keeps_bindMember :
    Keeps building (Parts r.attrs keys vals)
      (fun h => (h.Found members key ∧ h.Found members value) ∧ Filling members obj keys vals r h) (bindMember obj value)
      fun member h => (h.Element member ∧ h.Element key) ∧ Filling members obj keys vals r h := by
  refine (keeps_inspect fun _ _ facts _ => facts).bind fun tag => ?_
  split
  · have method : Keeps building (Parts r.attrs keys vals)
        (fun h => ((∀ y ∈ [value, obj], h.Element y) ∧ ∀ y, y = key → h.Anchored y) ∧ Filling members obj keys vals r h)
        (MethodObject.new value obj) fun x h =>
          (h.find? x = some (.method ⟨value, obj⟩) ∧ ¬ h.Rooted x ∧ ∀ y, y = key → h.Anchored y) ∧
            Filling members obj keys vals r h :=
      ((keeps_allocate (· = key) (.method ⟨value, obj⟩) (by simp [Payload.tag]) (by simp [Payload.tag]) rfl rfl).framed
        fun _ _ kept filling => filling.unwritten kept).widen fun _ => False.elim
    refine method.mono ?_ ?_
    · rintro h ⟨⟨key_found, value_found⟩, filling⟩
      refine ⟨⟨?_, ?_⟩, filling⟩
      · intro y member
        rcases List.mem_pair.1 member with rfl | rfl
        · exact value_found.1
        · exact ⟨_, filling.made, by simp [Payload.tag]⟩
      · rintro y rfl
        exact ⟨key_found.2 filling.around.rooted, key_found.1⟩
    · rintro x h ⟨⟨found, -, anchored⟩, filling⟩
      exact ⟨⟨⟨_, found, by simp [Payload.tag]⟩, (anchored key rfl).2⟩, filling⟩
  · refine keeps_pure value ?_
    rintro h ⟨⟨key_found, value_found⟩, filling⟩
    exact ⟨⟨value_found.1, key_found.1⟩, filling⟩

theorem keeps_storeMember {member : Handle} :
    Keeps building (Parts r.attrs keys vals)
      (fun h => (h.Element member ∧ h.Element key) ∧ Filling members obj keys vals r h)
      (DictObject.set r.attrs key member) fun _ => Filling members obj keys vals r := by
  intro m sound ⟨⟨member_live, key_live⟩, filling⟩
  obtain ⟨n, found⟩ := filling.table
  have table : m.heap.Anchored r.attrs := ⟨filling.attrs_rooted, _, found, by simp [Payload.tag]⟩
  obtain ⟨kept, ends⟩ := DictObject.keeps_set r.attrs key member ⟨n, keys, vals⟩ m sound ⟨found, table, key_live, member_live⟩
  exact ⟨kept, fun a done => filling.stored kept (ends a done)⟩

theorem keeps_copyMembers (count i : Nat) :
    Keeps building (Parts r.attrs keys vals) (Filling members obj keys vals r) (copyMembers members r.attrs obj count i)
      fun _ => Filling members obj keys vals r := by
  induction count generalizing i with
  | zero => exact keeps_pure () fun _ filling => filling
  | succ count ih =>
    have entry := (DictObject.reads_entry members i).steady fun h g glanced (filling : Filling members obj keys vals r h) =>
      filling.glanced glanced
    refine entry.keeps.bind fun (key, value) => ?_
    exact keeps_bindMember.bind fun member => keeps_storeMember.bind fun _ => ih (i + 1)

/-! ### The instance and its table -/

/-- The instance has been made and is kept, and shares the table of its class. -/
structure Begun (template : ClassRecord) (obj : Handle) (h : Heap) : Prop where
  made : h.find? obj = some (.inst template)
  kept : obj ∈ h.roots.inFlight
  around : Around (· = obj) h template.attrs

theorem Begun.unwritten {template : ClassRecord} (begun : Begun template obj h) (kept : Kept building (fun _ => False) h g) :
    Begun template obj g where
  made := by
    have root : obj ∈ h.collectionRoots [] := by simp [collectionRoots, RootSet.toList, begun.kept]
    exact kept.find? (.root root) id begun.made (by simp [Payload.tag])
  kept := by
    obtain ⟨more, roots, -⟩ := kept.roots
    simp [roots, begun.kept]
  around := (kept.widen fun _ => False.elim).around begun.around

theorem keeps_begin (template : ClassRecord) :
    Keeps true (fun _ => True) (fun h => (∀ y ∈ (Payload.inst template).refs, h.Element y) ∧ h.Anchored template.attrs)
      (do
        let obj ← allocate (.inst template)
        protect obj
        return obj) (Begun template) := by
  have made : Keeps true (fun _ => True)
      (fun h => (∀ y ∈ (Payload.inst template).refs, h.Element y) ∧ h.Anchored template.attrs) (allocate (.inst template))
      fun obj h => h.find? obj = some (.inst template) ∧ Around (· = obj) h template.attrs := by
    refine (keeps_allocate (· = template.attrs) (.inst template) (by simp [Payload.tag]) (by simp [Payload.tag])
      rfl rfl).mono (fun h start => ⟨start.1, fun y same => same ▸ start.2⟩) ?_
    rintro obj h ⟨found, unrooted, anchored⟩
    exact ⟨found, (anchored _ rfl).1.around fun y same => same ▸ unrooted⟩
  refine made.bind fun obj => ?_
  refine (keeps_protect obj (fun h facts => ⟨_, facts.1, by simp [Payload.tag]⟩) ?_).bind
    fun _ => keeps_pure obj fun _ begun => begun
  rintro h ⟨found, around⟩
  refine ⟨found, by simp [RootSet.protect], (confined_rerooted h _).around (fun y root => ?_) around⟩
  simp only [collectionRoots, RootSet.toList, RootSet.protect, List.mem_append] at root ⊢
  tauto

/-- Giving the instance another table. -/
theorem setAttrs_spec {m : Machine} {template : ClassRecord} {attrs : Handle} (sound : m.heap.Sound none)
    (made : m.heap.find? obj = some (.inst template)) (table : m.heap.Element attrs) :
    (setAttrs obj attrs).run m = (.ok (), m.put obj (.inst { template with attrs := attrs })) ∧
      Edited (· = obj) m.heap (m.put obj (.inst { template with attrs := attrs })).heap ∧
      (m.put obj (.inst { template with attrs := attrs })).heap.find? obj = some (.inst { template with attrs := attrs }) ∧
      (m.put obj (.inst { template with attrs := attrs })).heap.Sound none := by
  have edited : Edited (· = obj) m.heap (m.put obj (.inst { template with attrs := attrs })).heap :=
    edited_setPayload made rfl rfl
  have written : (m.put obj (.inst { template with attrs := attrs })).heap.find? obj = some (.inst { template with attrs }) :=
    find?_setPayload_self made _
  refine ⟨?_, edited, written, ?_⟩
  · rw [setAttrs, run_bind_ok (run_inspect_ok (payload_eq_ok_iff.2 made))]
    rfl
  · refine sound.rewritten made edited written (fun y member => ?_) rfl (by simp [Payload.tag]) (by simp [Payload.tag])
      rfl (fun t member => by cases member) (fun y none => by cases none)
    have refs := sound.refs obj _ made
    simp only [Payload.refs, Payload.children, List.mem_cons, List.not_mem_nil, or_false] at member refs
    rcases member with rfl | rfl | rfl
    · exact refs _ (.inl rfl)
    · exact table
    · exact refs _ (.inr (.inr rfl))

/-- Giving the instance a table that nothing refers to yet. -/
theorem keeps_setAttrs (template : ClassRecord) (obj attrs : Handle) :
    Keeps building (fun _ => True)
      (fun h => (∃ keys vals, h.find? attrs = some (.dict ⟨0, keys, vals⟩) ∧ ∀ s ∈ [attrs, keys, vals], ¬ h.Rooted s) ∧
        Begun template obj h) (setAttrs obj attrs)
      fun _ h => ∃ keys vals, Filling template.attrs obj keys vals { template with attrs := attrs } h := by
  intro m sound ⟨⟨keys, vals, table, unrooted⟩, begun⟩
  obtain ⟨done, edited, written, sound'⟩ := setAttrs_spec sound begun.made ⟨_, table, by simp [Payload.tag]⟩
  have root : obj ∈ m.heap.collectionRoots [] := by simp [collectionRoots, RootSet.toList, begun.kept]
  have different : attrs ≠ obj := by
    rintro rfl
    exact unrooted attrs (by simp) (.start root)
  rw [done]
  refine ⟨edited.toUpkeep.kept sound' (confined_everywhere _ _), fun _ _ => ⟨keys, vals, written, begun.kept, ?_, ⟨0, ?_⟩, ?_⟩⟩
  · rintro (same | same | same)
    · exact different same.symm
    · exact unrooted keys (by simp) (same ▸ .start root)
    · exact unrooted vals (by simp) (same ▸ .start root)
  · exact (edited.outside attrs different).trans table
  · -- a path that meets neither the instance nor its table
    have clear : Around (fun x => x = obj ∨ Parts attrs keys vals x) m.heap template.attrs := by
      refine begun.around.avoids fun y part => part.imp_right fun part around => ?_
      refine unrooted y ?_ around.rooted
      simpa [Parts] using part
    have after := (edited.confined (S := fun x => x = obj ∨ Parts attrs keys vals x) (.inl rfl)).around
      edited.toUpkeep.roots_subset clear
    exact after.avoids fun y part => .inl (.inr part)

theorem keeps_assemble (template : ClassRecord) :
    Keeps true (fun _ => True) (fun h => (∀ y ∈ (Payload.inst template).refs, h.Element y) ∧ h.Anchored template.attrs)
      (assemble template) fun made h => made.1 ∈ h.roots.inFlight := by
  have start := keeps_begin template
  have split : assemble template = (do
      let obj ← allocate (.inst template)
      protect obj
      return obj) >>= fun obj => do
        let attrs ← DictObject.new
        setAttrs obj attrs
        let count ← inspect fun h => h.dictLength template.attrs
        copyMembers template.attrs attrs obj count 0
        return (obj, attrs) := by
    simp only [assemble, bind_assoc, pure_bind]
  rw [split]
  refine start.bind fun obj => ?_
  have table : Keeps true (fun _ => True) (Begun template obj) DictObject.new fun attrs h =>
      (∃ keys vals, h.find? attrs = some (.dict ⟨0, keys, vals⟩) ∧ ∀ s ∈ [attrs, keys, vals], ¬ h.Rooted s) ∧
        Begun template obj h :=
    (((DictObject.keeps_new fun _ => False).framed fun _ _ kept begun => begun.unwritten kept).widen
      fun _ => False.elim).mono (fun _ begun => ⟨fun _ none => none.elim, begun⟩) fun _ _ facts => ⟨facts.1.1, facts.2⟩
  refine table.bind fun attrs => ?_
  refine (keeps_setAttrs template obj attrs).bind fun _ => ?_
  refine (keeps_inspect fun _ _ filling _ => filling).bind fun count => ?_
  have filled : Keeps true (fun _ => True)
      (fun h => ∃ keys vals, Filling template.attrs obj keys vals { template with attrs := attrs } h)
      (copyMembers template.attrs attrs obj count 0) fun _ h => obj ∈ h.roots.inFlight := by
    intro m sound ⟨keys, vals, filling⟩
    exact (((keeps_copyMembers count 0).widen fun _ _ => trivial).mono (fun _ filling => filling)
      fun _ _ filling => filling.kept) m sound filling
  exact filled.bind fun _ => keeps_pure (obj, attrs) fun _ kept => kept

/-! ### Up to the call of `__init__`, and from there on -/

/-- An instance with all members, and its `__init__`, if there is one. -/
def prepare (template : ClassRecord) : HeapM (Handle × Option Handle) := do
  let (obj, attrs) ← assemble template
  match ← DictObject.lookupText attrs "__init__" with
  | none => return (obj, none)
  | some init =>
    if (← inspect fun h => h.tagOf init) = .method then
      return (obj, some init)
    else
      throw .initNotMethod

/-- Call `__init__`, if there is one, and hand out the instance. -/
def finish (call : Interpreter) : Handle × Option Handle → HeapM Handle
  | (obj, none) => return obj
  | (obj, some init) => do
    let _ ← call init []
    return obj

theorem build_eq (call : Interpreter) (template : ClassRecord) : build call template = prepare template >>= finish call := by
  simp only [build, prepare, bind_assoc]
  congr 1
  funext (obj, attrs)
  simp only [runInit, bind_assoc]
  congr 1
  funext found
  cases found with
  | none => simp only [pure_bind, finish]
  | some init =>
    simp only [bind_assoc]
    congr 1
    funext tag
    by_cases method : tag = .method
    · simp only [if_pos method, bind_assoc, pure_bind, finish]
    · simp only [if_neg method]
      rfl

theorem keeps_prepare (template : ClassRecord) :
    Keeps true (fun _ => True) (fun h => (∀ y ∈ (Payload.inst template).refs, h.Element y) ∧ h.Anchored template.attrs)
      (prepare template) fun made h => made.1 ∈ h.roots.inFlight := by
  refine (keeps_assemble template).bind fun (obj, attrs) => ?_
  have lookup := (DictObject.reads_lookupText attrs "__init__").steady fun h g glanced (kept : obj ∈ h.roots.inFlight) =>
    show obj ∈ g.roots.inFlight from glanced.roots ▸ kept
  refine lookup.keeps.bind fun found => ?_
  cases found with
  | none => exact keeps_pure _ fun _ facts => facts.2
  | some init =>
    refine (keeps_inspect fun _ _ facts _ => facts.2).bind fun tag => ?_
    split
    · exact keeps_pure _ fun _ kept => kept
    · exact keeps_throw _

/-- The machine on which an instance of `cls` is made: a construction has begun. -/
def entering (cls : Handle) (m : Machine) : Machine :=
  ⟨{ m.heap with roots := m.heap.roots.enter }, m.log.push (.instantiating cls.slot)⟩

/-- Making an instance of `cls` on the machine `m` comes to call `init`, on `m'`. -/
def Calls (cls : Handle) (m : Machine) (init : Handle) (m' : Machine) : Prop :=
  ∃ template obj, m.heap.templateRecord cls = .ok template ∧
    (prepare template).run (entering cls m) = (.ok (obj, some init), m')

/-- Reports change neither the outcome nor the heap. -/
theorem run_reported (op : HeapM Handle) (ready : Handle → Event) (failed : Error → Event) (m : Machine) :
    ∃ log, (recover (do let x ← op; emit (ready x); return x) fun e => do emit (failed e); throw e).run m =
      ((op.run m).1, ⟨(op.run m).2.heap, log⟩) := by
  rw [run_recover, run_bind]
  rcases op.run m with ⟨e | x, m'⟩
  · exact ⟨_, rfl⟩
  · exact ⟨_, rfl⟩

section Instantiate

variable {m : Machine} {cls : Handle} {template : ClassRecord}

/-- An instantiation in terms of its two parts. -/
theorem run_instantiate (call : Interpreter) (read : m.heap.templateRecord cls = .ok template) :
    ∃ log, (instantiate call cls).run m =
      (((prepare template >>= finish call).run (entering cls m)).1,
        Machine.mapRoots ⟨((prepare template >>= finish call).run (entering cls m)).2.heap, log⟩ fun r =>
          r.leave m.heap.roots.inFlight.length) := by
  obtain ⟨log, reported⟩ := run_reported (build call template) (fun obj => .instanceReady obj.slot)
    (fun e => .instantiationFailed cls.slot e) (entering cls m)
  refine ⟨log, ?_⟩
  rw [← build_eq, instantiate, run_bind_ok (run_inspect_ok read), run_guarded]
  have body := run_bind_ok (f := fun _ => recover (do
      let obj ← build call template
      emit (.instanceReady obj.slot)
      return obj) fun e => do
      emit (.instantiationFailed cls.slot e)
      throw e) (run_emit (.instantiating cls.slot) (m.mapRoots RootSet.enter))
  rw [body.trans reported]

/-- What has been made before `__init__` is called is kept. -/
theorem prepare_kept (sound : m.heap.Sound none) (anchored : m.heap.Anchored cls)
    (read : m.heap.templateRecord cls = .ok template) :
    Kept true (fun _ => True) (entering cls m).heap ((prepare template).run (entering cls m)).2.heap ∧
      ∀ made, ((prepare template).run (entering cls m)).1 = .ok made →
        made.1 ∈ ((prepare template).run (entering cls m)).2.heap.roots.inFlight := by
  have found := templateRecord_eq_ok_iff.1 read
  have attrs : m.heap.Anchored template.attrs :=
    ⟨reaches_edge anchored.1 found (by simp [Payload.children]),
      sound.refs cls _ found _ (by simp [Payload.refs, Payload.children])⟩
  refine keeps_prepare template (entering cls m) (sound.rerooted fun x member => ?_)
    ⟨sound.refs cls (.cls template) found, attrs.rerooted (List.Subset.refl _)⟩
  exact sound.roots x (List.mem_append_left _ (List.mem_append_left _ member))

/-- The heap is sound when `__init__` is called. -/
theorem Calls.sound {init : Handle} {m' : Machine} (calls : Calls cls m init m') (sound : m.heap.Sound none)
    (anchored : m.heap.Anchored cls) : m'.heap.Sound none := by
  obtain ⟨template, obj, read, reached⟩ := calls
  have kept := (prepare_kept sound anchored read).1
  rw [reached] at kept
  exact kept.sound

theorem finish_settled (call : Interpreter) {obj : Handle} {found : Option Handle} (sound : m.heap.Sound none)
    (kept : obj ∈ m.heap.roots.inFlight)
    (inner : ∀ init, found = some init → Settled m.heap ((call init []).run m).2.heap) :
    Settled m.heap ((finish call (obj, found)).run m).2.heap ∧ ∀ x, ((finish call (obj, found)).run m).1 = .ok x →
      x ∈ ((finish call (obj, found)).run m).2.heap.roots.inFlight := by
  cases found with
  | none =>
    refine ⟨Settled.refl sound, fun x same => ?_⟩
    cases same
    exact kept
  | some init =>
    have settled := inner init rfl
    simp only [finish, run_bind]
    rcases called : (call init []).run m with ⟨e | y, m'⟩
    · rw [called] at settled
      exact ⟨settled, fun _ same => by cases same⟩
    · rw [called] at settled
      refine ⟨settled, fun x same => ?_⟩
      cases same
      show obj ∈ m'.heap.roots.inFlight
      rw [settled.inFlight]
      exact kept

/-- An instantiation keeps a heap sound if its `__init__` does. -/
theorem instantiate_settled (call : Interpreter) (sound : m.heap.Sound none) (anchored : m.heap.Anchored cls)
    (inner : ∀ init m', Calls cls m init m' → Settled m'.heap ((call init []).run m').2.heap) :
    Settled m.heap ((instantiate call cls).run m).2.heap ∧
      ∀ x, ((instantiate call cls).run m).1 = .ok x → ((instantiate call cls).run m).2.heap.Element x := by
  cases read : m.heap.templateRecord cls with
  | error e =>
    rw [instantiate, run_bind_error (by rw [run_inspect, read])]
    exact ⟨Settled.refl sound, fun _ same => by cases same⟩
  | ok template =>
    obtain ⟨kept, handed⟩ := prepare_kept sound anchored read
    obtain ⟨log, whole⟩ := run_instantiate call read
    obtain ⟨more, roots, -⟩ := kept.roots
    have inFlight : ((prepare template).run (entering cls m)).2.heap.roots.inFlight = m.heap.roots.inFlight ++ more := by
      rw [roots]
      rfl
    -- however the construction ends, it is left with a sound heap and all that was kept
    suffices ending : Settled ((prepare template).run (entering cls m)).2.heap
          ((prepare template >>= finish call).run (entering cls m)).2.heap ∧
        ∀ x, ((prepare template >>= finish call).run (entering cls m)).1 = .ok x →
          x ∈ ((prepare template >>= finish call).run (entering cls m)).2.heap.roots.inFlight by
      rw [whole]
      obtain ⟨settled, result⟩ := ending
      refine ⟨settled_left settled.sound (settled.constants.trans kept.constants) (settled.inFlight.trans inFlight), ?_⟩
      intro x done
      exact settled.sound.roots x (by simp [collectionRoots, RootSet.toList, result x done])
    rw [run_bind]
    rcases reached : (prepare template).run (entering cls m) with ⟨e | ⟨obj, found⟩, m₁⟩
    · rw [reached] at kept
      exact ⟨Settled.refl kept.sound, fun _ same => by cases same⟩
    · rw [reached] at kept handed
      refine finish_settled call kept.sound (handed _ rfl) fun init called => inner init m₁ ⟨template, obj, read, ?_⟩
      rw [reached, called]

end Instantiate

end ClassObject

end ChunkHeap

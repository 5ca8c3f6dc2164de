import ChunkHeap.Proofs.Calls

/-!
# Whole runs

A client calls one thing after another on a heap, starting with a new one. It
keeps to a few rules (`Client.Permits`): the roots lead to every operand, only
what has just been given out may become a root besides, no operand is a segment,
and the storage of a container is not changed behind its back. An instantiation
calls `__init__`, which does with the heap what a run of calls under the same
rules does (`Client.Run`).

The main result is `Client.visited_wellFormed`: after every call of every run,
with whatever outcome, also within `__init__`, the heap is well-formed.
-/

namespace ChunkHeap
set_option autoImplicit false

open HeapM Heap

/-! ### Clients -/

/-- A call on a heap. -/
inductive Call where
  | query (q : Query)
  | lookup (l : Lookup)
  | update (u : Update)
  | create (c : Creation)
  | instantiate (cls : Handle)
  | setGlobals (globals : Option Handle)
  | pushRoot (x : Handle)
  | popRoot
  | truncateRoots (depth : Nat)
  | collect

namespace Call

def operands : Call → List Handle
  | query q => q.operands
  | lookup l => l.operands
  | update u => u.operands
  | create c => c.operands
  | instantiate cls => [cls]
  | setGlobals _ | pushRoot _ | popRoot | truncateRoots _ | collect => []

/-- What the call makes a root. -/
def adopts : Call → List Handle
  | setGlobals globals => globals.toList
  | pushRoot x => [x]
  | _ => []

/-- The segmented list that the call changes directly. -/
def segList? : Call → Option Handle
  | update u => u.segList?
  | _ => none

/-- Whether the call changes nothing but the roots. -/
def onRoots : Call → Bool
  | setGlobals _ | pushRoot _ | popRoot | truncateRoots _ => true
  | _ => false

def instantiates : Call → Bool
  | instantiate _ => true
  | _ => false

/-- What the call does, and the objects it gives out. -/
def run (call : Interpreter) : Call → HeapM (List Handle)
  | query q => inspect q.read
  | lookup l => l.run
  | update u => do
    u.run
    return []
  | create c => do return [← c.run]
  | instantiate cls => do return [← ClassObject.instantiate call cls]
  | setGlobals globals => do
    HeapM.setGlobals globals
    return []
  | pushRoot x => do
    HeapM.pushRoot x
    return []
  | popRoot => do return (← HeapM.popRoot).toList
  | truncateRoots depth => do
    HeapM.truncateRoots depth
    return []
  | collect => do
    let _ ← HeapM.collect
    return []

/-- On the machine `m` the call comes to run the `__init__` method `init`, on `m'`. -/
def Enters (m : Machine) (init : Handle) (m' : Machine) : Call → Prop
  | instantiate cls => ClassObject.Calls cls m init m'
  | _ => False

theorem not_enters {c : Call} {m m' : Machine} {init : Handle} (plain : c.instantiates = false) : ¬ c.Enters m init m' := by
  intro enters
  cases c with
  | instantiate cls => cases plain
  | _ => exact enters

theorem Enters.unique {c : Call} {m m₁ m₂ : Machine} {init₁ init₂ : Handle} (enters : c.Enters m init₁ m₁)
    (enters' : c.Enters m init₂ m₂) : init₁ = init₂ ∧ m₁ = m₂ := by
  cases c with
  | instantiate cls =>
    obtain ⟨template, obj, read, reached⟩ := enters
    obtain ⟨template', obj', read', reached'⟩ := enters'
    rw [read] at read'
    cases read'
    rw [reached] at reached'
    cases reached'
    exact ⟨rfl, rfl⟩
  | _ => exact enters.elim

/-- The machine on which an instance of `cls` is ready for `__init__`. -/
def reaching (cls : Handle) (template : ClassRecord) (m : Machine) : Machine :=
  ((ClassObject.prepare template).run (ClassObject.entering cls m)).2

theorem enters_reaching {cls init : Handle} (obj : Handle) {template : ClassRecord} {m : Machine}
    (read : m.heap.templateRecord cls = .ok template)
    (called : ((ClassObject.prepare template).run (ClassObject.entering cls m)).1 = .ok (obj, some init)) :
    (instantiate cls).Enters m init (reaching cls template m) :=
  ⟨template, obj, read, Prod.ext called rfl⟩

end Call

/-- A machine in use, and what has just been given out. -/
structure Client where
  machine : Machine
  returned : List Handle := []

namespace Client

/-- The rules for a call. -/
structure Permits (s : Client) (c : Call) : Prop where
  operands : ∀ x ∈ c.operands, s.machine.heap.Rooted x
  adopts : ∀ x ∈ c.adopts, s.machine.heap.Rooted x ∨ x ∈ s.returned
  segments : ∀ x ∈ c.operands ++ c.adopts, ∀ r, s.machine.heap.find? x ≠ some (.segment r)
  storages : ∀ s' ∈ c.segList?, ∀ x p, s.machine.heap.find? x = some p → s' ∉ p.storages

/-- The client after a call, whatever its outcome. -/
def after (call : Interpreter) (s : Client) (c : Call) : Client where
  machine := ((c.run call).run s.machine).2
  returned := ((c.run call).run s.machine).1.toOption.getD [] ++ if c.onRoots then s.returned else []

/-- From one client to another by permitted calls. When an instantiation calls
`__init__`, this leaves the heap that some run of permitted calls leaves. -/
inductive Run (call : Interpreter) : Client → Client → Prop
  | refl (s : Client) : Run call s s
  | step {s t : Client} (c : Call) (run : Run call s t) (permits : t.Permits c)
      (quiet : ∀ init m, ¬ c.Enters t.machine init m) : Run call s (t.after call c)
  | nested {s t u : Client} {init : Handle} {m : Machine} (c : Call) (run : Run call s t) (permits : t.Permits c)
      (enters : c.Enters t.machine init m) (inner : Run call { machine := m } u)
      (ends : u.machine.heap = ((call init []).run m).2.heap) : Run call s (t.after call c)

/-- The clients along a run, also those within `__init__`, which need not end. -/
inductive Visited (call : Interpreter) : Client → Client → Prop
  | between {s t : Client} (run : Run call s t) : Visited call s t
  | inside {s t u : Client} {init : Handle} {m : Machine} (c : Call) (run : Run call s t) (permits : t.Permits c)
      (enters : c.Enters t.machine init m) (inner : Visited call { machine := m } u) : Visited call s u

/-! ### One call -/

/-- What holds of a client between two calls. -/
structure Sane (s : Client) : Prop where
  sound : s.machine.heap.Sound none
  returned : ∀ x ∈ s.returned, s.machine.heap.Element x

variable {call : Interpreter} {s t : Client} {c : Call}

theorem Sane.element {x : Handle} (sane : s.Sane) (rooted : s.machine.heap.Rooted x)
    (segment : ∀ r, s.machine.heap.find? x ≠ some (.segment r)) : s.machine.heap.Element x := by
  obtain ⟨p, found⟩ := sane.sound.live (List.Subset.refl _) rooted
  refine ⟨p, found, fun tag => ?_⟩
  cases p with
  | segment r => exact segment r found
  | _ => cases tag

/-- Operands that the rules admit are live. -/
theorem Permits.anchored (permits : s.Permits c) (sane : s.Sane) : ∀ x ∈ c.operands, s.machine.heap.Anchored x := by
  intro x operand
  have rooted := permits.operands x operand
  exact ⟨rooted, sane.element rooted (permits.segments x (List.mem_append_left _ operand))⟩

/-- New roots that the rules admit are live. -/
theorem Permits.adopted (permits : s.Permits c) (sane : s.Sane) : ∀ x ∈ c.adopts, s.machine.heap.Element x := by
  intro x adopted
  rcases permits.adopts x adopted with rooted | returned
  · exact sane.element rooted (permits.segments x (List.mem_append_right _ adopted))
  · exact sane.returned x returned

/-- A call that keeps the heap sound and gives out live objects. -/
theorem Sane.after_kept (settled : Settled s.machine.heap (s.after call c).machine.heap) (others : c.onRoots = false)
    (given : ∀ xs, ((c.run call).run s.machine).1 = .ok xs → ∀ y ∈ xs, (s.after call c).machine.heap.Element y) :
    Settled s.machine.heap (s.after call c).machine.heap ∧ (s.after call c).Sane := by
  refine ⟨settled, settled.sound, fun y member => ?_⟩
  simp only [after, others, Bool.false_eq_true, if_false, List.append_nil] at member
  cases outcome : ((c.run call).run s.machine).1 with
  | error e =>
    rw [outcome] at member
    cases member
  | ok xs =>
    rw [outcome] at member
    exact given xs outcome y member

/-- A call that changes the roots. -/
theorem Permits.after_roots {roots : RootSet} {xs : List Handle} (permits : s.Permits c) (sane : s.Sane)
    (only : c.onRoots = true) (done : (c.run call).run s.machine = (.ok xs, s.machine.mapRoots fun _ => roots))
    (inFlight : roots.inFlight = s.machine.heap.roots.inFlight)
    (old : ∀ x ∈ roots.toList, x ∈ s.machine.heap.roots.toList ∨ x ∈ c.adopts)
    (given : ∀ y ∈ xs, y ∈ s.machine.heap.roots.toList) :
    Settled s.machine.heap (s.after call c).machine.heap ∧ (s.after call c).Sane := by
  have root : ∀ x ∈ s.machine.heap.roots.toList, s.machine.heap.Element x := fun x member =>
    sane.sound.roots x (List.mem_append_left _ (List.mem_append_left _ member))
  have live : ∀ x ∈ roots.toList, s.machine.heap.Element x := fun x member =>
    (old x member).elim (root x) (permits.adopted sane x)
  have heap : (s.after call c).machine.heap = { s.machine.heap with roots := roots } := by
    simp only [after, done]
    rfl
  have settled : Settled s.machine.heap (s.after call c).machine.heap := by
    rw [heap]
    exact ⟨sane.sound.rerooted live, rfl, inFlight⟩
  refine ⟨settled, settled.sound, fun y member => ?_⟩
  simp only [after, done, only, if_true, List.mem_append] at member
  rw [heap]
  exact member.elim (fun handed => root y (given y handed)) (sane.returned y)

theorem Sane.after_keeps {pre : Heap → Prop} (sane : s.Sane) (others : c.onRoots = false)
    (keeps : Keeps false (fun _ => True) pre (c.run call) fun xs h => ∀ y ∈ xs, h.Element y)
    (start : pre s.machine.heap) : Settled s.machine.heap (s.after call c).machine.heap ∧ (s.after call c).Sane := by
  obtain ⟨kept, given⟩ := keeps s.machine sane.sound start
  exact Sane.after_kept kept.settled others given

/-- A permitted call leaves a sane client, if `__init__` keeps the heap sound. -/
theorem Permits.settles (permits : s.Permits c) (sane : s.Sane)
    (inner : ∀ init m, c.Enters s.machine init m → Settled m.heap ((call init []).run m).2.heap) :
    Settled s.machine.heap (s.after call c).machine.heap ∧ (s.after call c).Sane := by
  have operands := permits.anchored sane
  have none : ∀ {op : HeapM Unit} {pre : Heap → Prop}, Keeps false (fun _ => True) pre op (fun _ _ => True) →
      Keeps false (fun _ => True) pre (do op; return []) fun xs h => ∀ y ∈ xs, h.Element y := fun keeps =>
    keeps.bind fun _ => keeps_pure [] fun _ _ _ member => by cases member
  cases c with
  | query q =>
    have elements : ∀ items, q.read s.machine.heap = .ok items → ∀ y ∈ items, s.machine.heap.Element y :=
      fun _ => q.elements sane.sound fun x operand => (operands x operand).2
    exact Sane.after_kept (Settled.refl sane.sound) rfl elements
  | lookup l => exact sane.after_keeps rfl l.reads.keeps trivial
  | update u => exact sane.after_keeps rfl (none u.keeps) ⟨operands, permits.storages⟩
  | create c =>
    have one : Keeps false (fun _ => True) (fun h => ∀ x ∈ c.operands, h.Anchored x) ((Call.create c).run call)
        fun xs h => ∀ y ∈ xs, h.Element y :=
      c.keeps.bind fun x => keeps_pure [x] fun h element y member => List.mem_singleton.1 member ▸ element
    exact sane.after_keeps rfl one operands
  | instantiate cls =>
    obtain ⟨settled, made⟩ := ClassObject.instantiate_settled call sane.sound (operands cls (List.mem_singleton_self cls)) inner
    -- the answer is the object in a list of its own
    have ran : ((Call.instantiate cls).run call).run s.machine =
        (((ClassObject.instantiate call cls).run s.machine).1.map fun x => [x],
          ((ClassObject.instantiate call cls).run s.machine).2) := by
      rw [Call.run, run_bind]
      rcases (ClassObject.instantiate call cls).run s.machine with ⟨_ | x, m⟩ <;> rfl
    have heap : (s.after call (.instantiate cls)).machine.heap = ((ClassObject.instantiate call cls).run s.machine).2.heap := by
      rw [after, ran]
    rw [← heap] at settled made
    refine Sane.after_kept settled rfl fun xs outcome y member => ?_
    rw [ran] at outcome
    obtain ⟨x, built, rfl⟩ := except_map_ok outcome
    exact List.mem_singleton.1 member ▸ made x built
  | setGlobals globals =>
    refine permits.after_roots sane rfl rfl rfl (fun x root => ?_) (by simp)
    simp only [RootSet.toList, List.mem_append, Call.adopts] at root ⊢
    tauto
  | pushRoot x =>
    refine permits.after_roots sane rfl rfl rfl (fun y root => ?_) (by simp)
    simp only [RootSet.toList, RootSet.push, List.mem_append, Call.adopts] at root ⊢
    tauto
  | popRoot =>
    refine permits.after_roots sane rfl rfl rfl (fun y root => .inl ?_) fun y popped => ?_
    · simp only [RootSet.toList, RootSet.pop, List.mem_append] at root ⊢
      exact root.imp_left fun root => root.imp_right fun member => List.dropLast_subset _ member
    · have last := List.mem_of_getLast? (Option.mem_toList.1 popped)
      simp only [RootSet.toList, List.mem_append]
      exact .inl (.inr last)
  | truncateRoots depth =>
    refine permits.after_roots sane rfl rfl rfl (fun y root => .inl ?_) (by simp)
    simp only [RootSet.toList, RootSet.truncate, List.mem_append] at root ⊢
    exact root.imp_left fun root => root.imp_right List.mem_of_mem_take
  | collect =>
    have settled : Settled s.machine.heap (s.machine.heap.collectWith []).heap :=
      ⟨sane.sound.swept (by simp) (.inr rfl), rfl, rfl⟩
    refine Sane.after_kept settled rfl fun xs outcome y member => ?_
    cases outcome
    cases member

/-! ### Runs -/

variable {init : Handle} {m : Machine}

theorem Permits.inside (permits : s.Permits c) (sane : s.Sane) (enters : c.Enters s.machine init m) :
    Sane { machine := m } := by
  refine ⟨?_, fun x member => by cases member⟩
  cases c with
  | instantiate cls => exact ClassObject.Calls.sound enters sane.sound (permits.anchored sane cls (List.mem_singleton_self cls))
  | _ => exact enters.elim

/-- A run takes a sane client to a sane one. -/
theorem Run.settles (run : Run call s t) (sane : s.Sane) : Settled s.machine.heap t.machine.heap ∧ t.Sane := by
  induction run with
  | refl s => exact ⟨Settled.refl sane.sound, sane⟩
  | step c run permits quiet ih =>
    obtain ⟨before, sane⟩ := ih sane
    obtain ⟨settled, sane⟩ := permits.settles sane fun init m enters => (quiet init m enters).elim
    exact ⟨before.trans settled, sane⟩
  | nested c run permits enters inner ends ih within =>
    obtain ⟨before, sane⟩ := ih sane
    have body := (within (permits.inside sane enters)).1
    rw [ends] at body
    obtain ⟨settled, sane⟩ := permits.settles sane fun init m enters' => by
      obtain ⟨rfl, rfl⟩ := enters.unique enters'
      exact body
    exact ⟨before.trans settled, sane⟩

theorem Visited.sane (visited : Visited call s t) (sane : s.Sane) : t.Sane := by
  induction visited with
  | between run => exact (run.settles sane).2
  | inside c run permits enters inner ih => exact ih (permits.inside (run.settles sane).2 enters)

/-! ### Checking a run

The rules ask where the roots lead. It is enough that each operand is a root. -/

/-- Whether the operands are roots, and the call is otherwise as the rules ask. -/
def admits (s : Client) (c : Call) : Bool :=
  let h := s.machine.heap
  c.operands.all (fun x => x ∈ h.collectionRoots []) &&
    c.adopts.all (fun x => x ∈ h.collectionRoots [] ∨ x ∈ s.returned) &&
    (c.operands ++ c.adopts).all (fun x => (h.find? x).all fun p => p.tag ≠ .segment) && c.segList?.isNone

theorem permits_of_admits (admitted : s.admits c) : s.Permits c := by
  simp only [admits, Bool.and_eq_true, List.all_eq_true, decide_eq_true_eq, Option.isNone_iff_eq_none] at admitted
  obtain ⟨⟨⟨operands, adopts⟩, segments⟩, storages⟩ := admitted
  refine ⟨fun x operand => .start (operands x operand), fun x adopted => (adopts x adopted).imp_left .start, ?_, ?_⟩
  · intro x member r found
    have other := segments x member
    rw [found] at other
    cases other
  · rw [storages]
    intro _ member
    cases member

/-- Whether calls that run no `__init__` are admitted one after another. -/
def admitsAll (call : Interpreter) (s : Client) (cs : List Call) : Bool :=
  passes (fun c s => s.after call c) (fun c s => s.admits c && !c.instantiates) cs s

theorem Run.admitted {cs : List Call} (run : Run call s t) (admitted : admitsAll call t cs) :
    Run call s (cs.foldl (after call) t) := by
  refine of_passes (P := fun cs t => Run call s t → Run call s (cs.foldl (after call) t)) ?_ ?_ admitted run
  · exact fun _ run => run
  · intro c rest t admitted others run
    rw [Bool.and_eq_true, Bool.not_eq_true'] at admitted
    obtain ⟨first, plain⟩ := admitted
    apply others
    exact run.step c (permits_of_admits first) fun _ _ => Call.not_enters plain

end Client

/-! ### Well-formed heaps -/

/-- What every heap in use satisfies. -/
structure Heap.WellFormed (h : Heap) : Prop where
  edges : ∀ x p, h.find? x = some p → ∀ y ∈ p.children, ∃ q, h.find? y = some q
  headers : h.Headed
  /-- A segmented list has a chain of segments, all full but the last, and an empty one has none. -/
  chains : ∀ x r, h.find? x = some (.seglist r) → ∃ c, h.Chained r c ∧ (r.length = 0 → c = [])
  disjoint : ∀ x y c d, h.Carries x c → h.Carries y d → x ≠ y → ∀ s ∈ c.map Prod.fst, s ∉ d.map Prod.fst
  covered : ∀ s r, h.find? s = some (.segment r) → ∃ x c, h.Carries x c ∧ s ∈ c.map Prod.fst
  /-- Nothing but its chain leads to a segment. -/
  references : ∀ x p, h.find? x = some p → ∀ y ∈ p.refs, ∀ r, h.find? y ≠ some (.segment r)
  lists : ∀ x r, h.find? x = some (.list r) → ∃ q, h.find? r.storage = some (.seglist q) ∧ q.length = r.length
  dicts : ∀ x r, h.find? x = some (.dict r) → r.keys ≠ r.vals ∧
    (∃ q, h.find? r.keys = some (.seglist q) ∧ q.length = r.length) ∧
    ∃ q, h.find? r.vals = some (.seglist q) ∧ q.length = r.length
  owner : ∀ x y p q s, h.find? x = some p → h.find? y = some q → s ∈ p.storages → s ∈ q.storages → x = y
  roots : ∀ x ∈ h.collectionRoots [], h.Element x

theorem Heap.Chained.nil_of_empty {h : Heap} {r : SegListRecord} {c : Chain} (chained : h.Chained r c)
    (empty : r.length = 0) : c = [] := by
  have count := chained.length_chain
  rw [← chained.length, empty] at count
  exact List.eq_nil_of_length_eq_zero count

theorem Heap.Sound.wellFormed {h : Heap} (sound : h.Sound none) : h.WellFormed where
  edges _ _ found _ edge := sound.edges found edge
  headers := sound.headed
  chains x r found := by
    obtain ⟨c, chained⟩ := sound.chains x r found
    exact ⟨c, chained, chained.nil_of_empty⟩
  disjoint := sound.disjoint
  covered := sound.covered
  references x p found y member := (sound.refs x p found y member).not_segment
  lists x r found := by
    obtain ⟨q, live, length⟩ := sound.stores x _ found r.storage List.mem_cons_self
    exact ⟨q, live, length (by simp)⟩
  dicts x r found := by
    have apart := sound.separate x _ found
    obtain ⟨k, keys, keysLength⟩ := sound.stores x _ found r.keys List.mem_cons_self
    obtain ⟨v, vals, valsLength⟩ := sound.stores x _ found r.vals (List.mem_cons_of_mem _ List.mem_cons_self)
    refine ⟨?_, ⟨k, keys, keysLength (by simp)⟩, v, vals, valsLength (by simp)⟩
    simpa [Payload.storages] using apart
  owner := sound.owner
  roots := sound.roots

/-- A client of a new heap. -/
theorem Client.sane_new {config : HeapConfig} {m : Machine} (made : Machine.create config = (.ok (), m)) :
    Client.Sane { machine := m } :=
  ⟨(Machine.create_sound made).1, fun _ member => by cases member⟩

/-- From a new heap on, the heap is well-formed after every call of every run. -/
theorem Client.visited_wellFormed (call : Interpreter) {config : HeapConfig} {m : Machine} {s : Client}
    (made : Machine.create config = (.ok (), m)) (visited : Visited call { machine := m } s) :
    s.machine.heap.WellFormed := by
  have start := sane_new made
  exact (visited.sane start).sound.wellFormed

/-! ### A run in a heap that just holds it -/

namespace Client

/-- Every body collects. -/
def tidying : Interpreter := fun init _ => do
  let _ ← HeapM.collect
  return init

theorem heap_after_collect (s : Client) (init : Handle) :
    (s.after tidying .collect).machine.heap = ((tidying init []).run s.machine).2.heap := rfl

/-- A heap for a class and one instance, to the byte. -/
def tight : HeapConfig := { arenaBytes := 212, maxChunkBytes := 64 }

/-- Make a class with an `__init__` method. -/
def declareClass : List Call :=
  [.create (.str "__init__"), .pushRoot ⟨4⟩, .create (.function ⟨4⟩ (.native 0)), .pushRoot ⟨5⟩, .create .dict,
    .pushRoot ⟨8⟩, .update (.dictSet ⟨8⟩ ⟨4⟩ ⟨5⟩), .create (.tuple []), .pushRoot ⟨11⟩,
    .create (.cls ⟨4⟩ ⟨8⟩ ⟨11⟩), .pushRoot ⟨12⟩]

def declared : Client :=
  declareClass.foldl (after tidying) { machine := (Machine.create tight).2 }

/-- When `__init__` is called for an instance of the class. -/
abbrev initializing : Machine :=
  Call.reaching ⟨12⟩ ⟨⟨4⟩, ⟨8⟩, ⟨11⟩⟩ declared.machine

/-- With the instance as a root there is no room for a dictionary; then the instance is given up. -/
def giveUp : List Call :=
  [.pushRoot ⟨13⟩, .create .dict, .popRoot, .collect]

theorem run_declared : Run tidying { machine := (Machine.create tight).2 } declared :=
  (Run.refl _).admitted (by decide +kernel)

theorem permits_instance : declared.Permits (.instantiate ⟨12⟩) :=
  permits_of_admits (by decide +kernel)

theorem enters_instance : (Call.instantiate ⟨12⟩).Enters declared.machine ⟨17⟩ initializing :=
  Call.enters_reaching ⟨13⟩ (by decide +kernel) (by decide +kernel)

theorem run_initializing : Run tidying { machine := initializing } (after tidying { machine := initializing } .collect) :=
  .step .collect (.refl _) (permits_of_admits (by decide +kernel)) fun _ _ enters => enters

theorem run_instance : Run tidying { machine := (Machine.create tight).2 } (declared.after tidying (.instantiate ⟨12⟩)) :=
  .nested _ run_declared permits_instance enters_instance run_initializing (heap_after_collect { machine := initializing } ⟨17⟩)

/-- Well-formed within `__init__`, where the heap is full, and at the end. -/
theorem visited_wellFormed_tight :
    Machine.create tight = (.ok (), (Machine.create tight).2) ∧
      Visited tidying { machine := (Machine.create tight).2 } (after tidying { machine := initializing } .collect) ∧
      (after tidying { machine := initializing } .collect).machine.heap.WellFormed ∧
      Visited tidying { machine := (Machine.create tight).2 }
        (giveUp.foldl (after tidying) (declared.after tidying (.instantiate ⟨12⟩))) ∧
      (giveUp.foldl (after tidying) (declared.after tidying (.instantiate ⟨12⟩))).machine.heap.WellFormed := by
  have made : Machine.create tight = (.ok (), (Machine.create tight).2) := by rfl
  have within : Visited tidying { machine := (Machine.create tight).2 } (after tidying { machine := initializing } .collect) :=
    .inside _ run_declared permits_instance enters_instance (.between run_initializing)
  have ended := Visited.between (run_instance.admitted (by decide +kernel : admitsAll tidying _ giveUp = true))
  exact ⟨made, within, visited_wellFormed tidying made within, ended, visited_wellFormed tidying made ended⟩

end Client

end ChunkHeap

import ChunkHeap.Proofs.Guards

/-!
# Descent

Every run keeps a heap in lineage (`Client.Visited.lineal`). Most operations take tame
steps only, and those bring no new descent. What is left are the operations that make
tuples, classes and instances, and the one that gives a new instance its table: these
are followed up to the point where they do so (`HeapM.Breeds`).
-/

namespace ChunkHeap
set_option autoImplicit false

open HeapM Heap

namespace HeapM

variable {α β : Type} {pre : Heap → Prop} {post : α → Heap → Prop}

/-- From a heap in lineage where `pre` holds the operation comes to such a heap, and if it
succeeds its result satisfies `post`. -/
def Breeds (pre : Heap → Prop) (op : HeapM α) (post : α → Heap → Prop) : Prop :=
  ∀ m, m.heap.Lineal → pre m.heap →
    (op.run m).2.heap.Lineal ∧ ∀ a, (op.run m).1 = .ok a → post a (op.run m).2.heap

theorem Breeds.bind {op : HeapM α} {f : α → HeapM β} {last : β → Heap → Prop} (first : Breeds pre op post)
    (next : ∀ a, Breeds (post a) (f a) last) : Breeds pre (op >>= f) last := by
  intro m lineal start
  obtain ⟨lineal', ends⟩ := first m lineal start
  rw [run_bind]
  rcases ran : op.run m with ⟨e | a, m'⟩
  · rw [ran] at lineal'
    exact ⟨lineal', fun _ same => by cases same⟩
  · rw [ran] at lineal' ends
    exact next a m' lineal' (ends a rfl)

theorem Takes.breeds {op : HeapM α} (takes : Takes Machine.NoCalls true true op) : Breeds pre op fun _ _ => True :=
  fun m lineal _ => ⟨(takes m).lineal lineal, fun _ _ => trivial⟩

theorem breeds_inspect {f : Heap → Except Error α} (holds : ∀ h a, pre h → f h = .ok a → post a h) :
    Breeds pre (inspect f) post :=
  fun m lineal start => ⟨lineal, fun a read => holds m.heap a start read⟩

/-- An object of which the parents are there. -/
theorem breeds_allocate (p : Payload) : Breeds (fun h => h.Pedigree p) (allocate p) fun x h => h.find? x = some p := by
  intro m lineal pedigree
  refine ⟨lineal.allocated pedigree, fun x done => ?_⟩
  obtain ⟨g, -, ⟨e, m', failed, -⟩ | ⟨y, m', made, entered⟩⟩ := allocatePinned_spec p [] lineal.accounted
  · rw [allocate, failed] at done
    cases done
  · rw [allocate, made] at done ⊢
    cases done
    exact entered.here

end HeapM

/-! ### Instances -/

theorem DictObject.breeds_new : Breeds (fun _ => True) DictObject.new fun x h => ∃ t, h.find? x = some (.dict t) := by
  refine (SegList.takes_new).breeds.bind fun keys => ?_
  refine (takes_allocatePinned (.seglist {}) [keys] fun _ => rfl).breeds.bind fun vals => ?_
  intro m lineal _
  obtain ⟨lineal', made⟩ := breeds_allocate (.dict ⟨0, keys, vals⟩) m lineal trivial
  exact ⟨lineal', fun x done => ⟨_, made x done⟩⟩

namespace ClassObject

/-- The table that an instance is given has to be there; the instance need not. -/
theorem breeds_setAttrs (obj attrs : Handle) :
    Breeds (fun h => ∃ t, h.find? attrs = some (.dict t)) (setAttrs obj attrs) fun _ _ => True := by
  intro m lineal ⟨t, table⟩
  refine ⟨?_, fun _ _ => trivial⟩
  rw [setAttrs, run_bind, run_inspect]
  cases read : m.heap.payload obj with
  | error e => exact lineal
  | ok p =>
    cases p with
    | inst r => exact lineal.reattributed (payload_eq_ok_iff.1 read) table
    | _ => exact lineal

theorem breeds_assemble (template : ClassRecord) :
    Breeds (fun h => h.Pedigree (.inst template)) (assemble template) fun _ _ => True := by
  refine (breeds_allocate (.inst template)).bind fun obj => (takes_protect obj).breeds.bind fun _ => ?_
  refine DictObject.breeds_new.bind fun attrs => (breeds_setAttrs obj attrs).bind fun _ => Takes.breeds ?_
  exact (takes_inspect _).bind fun count => (takes_copyMembers _ _ _ _ _).bind fun _ => takes_pure _

theorem breeds_prepare (template : ClassRecord) :
    Breeds (fun h => h.Pedigree (.inst template)) (prepare template) fun _ _ => True := by
  refine (breeds_assemble template).bind fun (obj, attrs) => Takes.breeds ?_
  refine (DictObject.takes_lookupText attrs "__init__").bind fun found => ?_
  cases found with
  | none => exact takes_pure _
  | some init =>
    refine (takes_inspect _).bind fun tag => ?_
    split
    · exact takes_pure _
    · exact takes_throw _

variable {m m' : Machine} {cls init : Handle} {template : ClassRecord}

/-- An instance descends from what its class descends from. -/
theorem prepare_lineal (lineal : m.heap.Lineal) (read : m.heap.templateRecord cls = .ok template) :
    ((prepare template).run (entering cls m)).2.heap.Lineal := by
  have pedigree := lineal.pedigrees cls _ (templateRecord_eq_ok_iff.1 read)
  exact (breeds_prepare template (entering cls m) (lineal.rerooted m.heap.roots.enter) pedigree).1

theorem Calls.lineal (calls : Calls cls m init m') (lineal : m.heap.Lineal) : m'.heap.Lineal := by
  obtain ⟨template, obj, read, reached⟩ := calls
  have prepared := prepare_lineal lineal read
  rwa [reached] at prepared

/-- An instantiation keeps a heap in lineage if its `__init__` does. -/
theorem instantiate_lineal (call : Interpreter) (lineal : m.heap.Lineal)
    (inner : ∀ init m', Calls cls m init m' → ((call init []).run m').2.heap.Lineal) :
    ((instantiate call cls).run m).2.heap.Lineal := by
  cases read : m.heap.templateRecord cls with
  | error e =>
    rw [instantiate, run_bind_error (by rw [run_inspect, read])]
    exact lineal
  | ok template =>
    obtain ⟨log, whole⟩ := run_instantiate call read
    have prepared := prepare_lineal lineal read
    rw [whole]
    suffices ending : ((prepare template >>= finish call).run (entering cls m)).2.heap.Lineal from ending.rerooted _
    rw [run_bind]
    rcases reached : (prepare template).run (entering cls m) with ⟨e | ⟨obj, found⟩, m₁⟩
    · rw [reached] at prepared
      exact prepared
    · rw [reached] at prepared
      cases found with
      | none => exact prepared
      | some init =>
        have called := inner init m₁ ⟨template, obj, read, reached⟩
        simp only [finish, run_bind]
        rcases ran : (call init []).run m₁ with ⟨e | y, m₂⟩
        · rw [ran] at called
          exact called
        · rw [ran] at called
          exact called

end ClassObject

/-! ### Calls -/

theorem Creation.breeds (c : Creation) :
    Breeds (fun h => h.Headed ∧ ∀ x ∈ c.operands, h.Element x) c.run fun _ _ => True := by
  cases c with
  | tuple items =>
    intro m lineal ⟨_, elements⟩
    exact ⟨(breeds_allocate (.tuple items) m lineal elements).1, fun _ _ => trivial⟩
  | cls name attrs bases =>
    refine (breeds_inspect fun h _ start _ => start.1).bind fun _ => ?_
    have table : Breeds Headed (inspect fun h => h.expectTag attrs .dict) fun _ h =>
        h.Headed ∧ ∃ t, h.find? attrs = some (.dict t) := by
      refine breeds_inspect fun h _ headed read => ⟨headed, ?_⟩
      obtain ⟨p, found, tag⟩ := headed.expectTag_eq_ok_iff.1 read
      cases p <;> cases tag
      exact ⟨_, found⟩
    refine table.bind fun _ => ?_
    have pedigree : Breeds (fun h => h.Headed ∧ ∃ t, h.find? attrs = some (.dict t))
        (inspect fun h => h.expectTag bases .tuple) fun _ h => h.Pedigree (.cls ⟨name, attrs, bases⟩) := by
      refine breeds_inspect fun h _ ⟨headed, table⟩ read => ⟨table, ?_⟩
      obtain ⟨p, found, tag⟩ := headed.expectTag_eq_ok_iff.1 read
      cases p <;> cases tag
      exact ⟨_, found⟩
    refine pedigree.bind fun _ m lineal start => ?_
    exact ⟨(breeds_allocate _ m lineal start).1, fun _ _ => trivial⟩
  | _ => exact (Creation.takes _ fun _ => rfl).breeds

theorem Call.Enters.lineal {c : Call} {init : Handle} {m m' : Machine} (enters : c.Enters m init m') (lineal : m.heap.Lineal) :
    m'.heap.Lineal := by
  cases c with
  | instantiate cls => exact ClassObject.Calls.lineal enters lineal
  | _ => exact enters.elim

namespace Client

variable {call : Interpreter} {s t : Client} {c : Call} {init : Handle} {m : Machine}

/-- A permitted call keeps a heap in lineage, if `__init__` does. -/
theorem Permits.lineal (permits : s.Permits c) (sane : s.Sane) (lineal : s.machine.heap.Lineal)
    (inner : ∀ init m, c.Enters s.machine init m → ((call init []).run m).2.heap.Lineal) :
    (s.after call c).machine.heap.Lineal := by
  have tame : ∀ {op : HeapM (List Handle)}, Takes Machine.NoCalls true true op → (op.run s.machine).2.heap.Lineal :=
    fun takes => (takes s.machine).lineal lineal
  cases c with
  | query q => exact lineal
  | lookup l => exact tame l.takes
  | update u => exact tame (u.takes.bind fun _ => takes_pure [])
  | create c =>
    have elements := fun x operand => (permits.anchored sane x operand).2
    have bred : Breeds _ ((Call.create c).run call) fun _ _ => True := c.breeds.bind fun _ => (takes_pure _).breeds
    exact (bred s.machine lineal ⟨sane.sound.headed, elements⟩).1
  | instantiate cls =>
    have made := ClassObject.instantiate_lineal call lineal inner
    have heap : (s.after call (.instantiate cls)).machine.heap = ((ClassObject.instantiate call cls).run s.machine).2.heap := by
      rw [after, Call.run, run_bind]
      rcases (ClassObject.instantiate call cls).run s.machine with ⟨_ | x, m⟩ <;> rfl
    rwa [heap]
  | setGlobals | pushRoot | popRoot | truncateRoots => exact lineal.rerooted _
  | collect =>
    have swept : Swept [] s.machine.heap (s.machine.heap.collectWith []).heap := .inr rfl
    exact lineal.swept swept

theorem Run.lineal (run : Run call s t) (sane : s.Sane) (lineal : s.machine.heap.Lineal) : t.machine.heap.Lineal := by
  induction run with
  | refl s => exact lineal
  | step c run permits quiet ih =>
    exact permits.lineal (run.settles sane).2 (ih sane lineal) fun init m enters => (quiet init m enters).elim
  | nested c run permits enters inner ends ih within =>
    have sane' := (run.settles sane).2
    have lineal' := ih sane lineal
    have body := within (permits.inside sane' enters) (enters.lineal lineal')
    refine permits.lineal sane' lineal' fun init m enters' => ?_
    obtain ⟨rfl, rfl⟩ := enters.unique enters'
    rwa [← ends]

/-- Lineage along a run, also within `__init__`. -/
theorem Visited.lineal (visited : Visited call s t) (sane : s.Sane) (lineal : s.machine.heap.Lineal) :
    t.machine.heap.Lineal := by
  induction visited with
  | between run => exact run.lineal sane lineal
  | inside c run permits enters inner ih =>
    have sane' := (run.settles sane).2
    exact ih (permits.inside sane' enters) (enters.lineal (run.lineal sane lineal))

end Client

/-- A new heap is in lineage: none of its objects descends from others. -/
theorem Machine.create_lineal {config : HeapConfig} {m : Machine} (made : Machine.create config = (.ok (), m)) :
    m.heap.Lineal := by
  obtain ⟨constants, m', ran, heap⟩ := Machine.create_made made
  have takes : Takes Machine.NoCalls true false (guarded makeConstants) := takes_makeConstants.guarded
  have none : ∀ x, (Heap.blank config).find? x = none := fun _ => rfl
  have blank : (Heap.blank config).Lineal := by
    refine ⟨(Balanced.blank config).accounted, ⟨fun x => .intro x fun y ⟨p, found, _⟩ => ?_⟩, fun x p found => ?_⟩
    all_goals
      rw [none] at found
      cases found
  have lineal := (takes { heap := Heap.blank config }).lineal blank
  rw [ran] at lineal
  rw [heap]
  exact ⟨⟨lineal.accounted.arena, lineal.accounted.bytes⟩, lineal.founded, lineal.pedigrees⟩

end ChunkHeap

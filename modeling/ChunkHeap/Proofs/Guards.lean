import ChunkHeap.Proofs.Steps
import ChunkHeap.Proofs.WholeRun

/-!
# Constructions balance

An operation may open a construction, protect objects in it, allocate, call back
and fail at any of these points. Whatever it does and wherever it stops, on every
heap, it hands back the roots it was given: the globals, the root stack, the
objects under construction in order, and the number of open constructions
(`Call.roots_of_run`).

A `Site` is a machine with the constructions that a client has open, each with
the depth at which it began and, for the record only, what it has protected.
Closing one goes by the depth alone. `Site.Kept.run` shows that the depths are
right after every run, so the objects under construction are what the open
constructions have protected, the outermost first.

`Call.constructions_balanced` puts these together, with what they mean for
collection: what a failed operation leaves behind is gone with the next one.
-/

namespace ChunkHeap
set_option autoImplicit false

open HeapM Heap

/-! ### Operations -/

/-- An interpreter that leaves the roots as it finds them. -/
def Interpreter.Tidy (call : Interpreter) : Prop :=
  ∀ x args m, ((call x args).run m).2.heap.roots = m.heap.roots

namespace Call

variable {call : Interpreter} {c : Call}

theorem takes {foreign : Machine → Machine → Prop}
    (called : c.instantiates = true → ∀ x args m, foreign m ((call x args).run m).2) (others : c.onRoots = false) :
    Takes foreign false false (c.run call) := by
  cases c with
  | query q => exact takes_inspect _
  | lookup l => exact l.takes
  | update u => exact u.takes.bind fun _ => takes_pure _
  | create c => exact (c.takes fun never => by cases never).bind fun _ => takes_pure _
  | instantiate cls =>
    exact (ClassObject.takes_instantiate (called rfl) cls).bind fun _ => takes_pure _
  | collect => exact (takes_collectWith []).bind fun _ => takes_pure _
  | setGlobals | pushRoot | popRoot | truncateRoots => cases others

/-- An operation hands back the roots it was given. -/
theorem roots_of_run (tidy : call.Tidy) (others : c.onRoots = false) (m : Machine) :
    ((c.run call).run m).2.heap.roots = m.heap.roots := by
  have steps : Takes (fun m m' => m'.heap.roots = m.heap.roots) false false (c.run call) :=
    takes (fun _ x args m => tidy x args m) others
  exact (steps m).roots fun _ _ same => same

/-- No call at all touches the objects under construction. -/
theorem inFlight_of_run (tidy : call.Tidy) (c : Call) (m : Machine) :
    ((c.run call).run m).2.heap.roots.inFlight = m.heap.roots.inFlight ∧
      ((c.run call).run m).2.heap.roots.constructions = m.heap.roots.constructions := by
  cases others : c.onRoots with
  | false =>
    rw [roots_of_run tidy others]
    exact ⟨rfl, rfl⟩
  | true =>
    cases c with
    | setGlobals | pushRoot | popRoot | truncateRoots => exact ⟨rfl, rfl⟩
    | _ => cases others

end Call

/-! ### Open constructions -/

/-- An open construction: how many objects were under construction when it began,
and what it has protected since. -/
structure Guard where
  depth : Nat
  kept : List Handle := []

/-- What open constructions have protected, the outermost first. -/
def Guard.inOrder (guards : List Guard) : List Handle :=
  (guards.reverse.map Guard.kept).flatten

@[simp] theorem Guard.inOrder_nil : Guard.inOrder [] = [] := rfl

@[simp] theorem Guard.inOrder_cons (g : Guard) (outer : List Guard) :
    Guard.inOrder (g :: outer) = Guard.inOrder outer ++ g.kept := by
  simp [Guard.inOrder]

/-- A machine in use, with its open constructions, the latest first. -/
structure Site where
  machine : Machine
  guards : List Guard := []

/-- What a client does at a site: it runs an operation, or uses the heap directly,
which includes opening, feeding and closing constructions. -/
inductive SiteCall where
  | operation (c : Call)
  | direct (c : HeapCall)

namespace Site

/-- The open constructions after a direct use of the heap. -/
def regard (s : Site) : HeapCall → List Guard
  | .acquire => { depth := s.machine.heap.roots.inFlight.length } :: s.guards
  | .protect x =>
    match s.guards with
    | [] => []
    | g :: outer => { g with kept := g.kept ++ [x] } :: outer
  | .drop => s.guards.tail
  | _ => s.guards

/-- The site after one call. A construction is closed by its depth. -/
def step (call : Interpreter) (s : Site) : SiteCall → Site
  | .operation c => { s with machine := ((c.run call).run s.machine).2 }
  | .direct c =>
    { machine := (Session.step { machine := s.machine, guards := s.guards.map Guard.depth } c).machine
      guards := s.regard c }

/-- The site after a list of calls. -/
def run (call : Interpreter) (s : Site) (calls : List SiteCall) : Site :=
  calls.foldl (step call) s

/-- Each construction began where those outside it left off, after the objects `base`. -/
def Nested (base : List Handle) : List Guard → Prop
  | [] => True
  | g :: outer => g.depth = (base ++ Guard.inOrder outer).length ∧ Nested base outer

/-- The objects under construction are `base` and what the open constructions have
protected, and there are `count` constructions besides the open ones. -/
structure Kept (base : List Handle) (count : Nat) (s : Site) : Prop where
  nested : Nested base s.guards
  inFlight : s.machine.heap.roots.inFlight = base ++ Guard.inOrder s.guards
  constructions : s.machine.heap.roots.constructions = count + s.guards.length

variable {call : Interpreter} {base : List Handle} {count : Nat} {s : Site}

/-- A step that leaves the objects under construction and the open constructions alone. -/
theorem Kept.congr {t : Site} (kept : s.Kept base count) (guards : t.guards = s.guards)
    (inFlight : t.machine.heap.roots.inFlight = s.machine.heap.roots.inFlight)
    (constructions : t.machine.heap.roots.constructions = s.machine.heap.roots.constructions) : t.Kept base count where
  nested := guards ▸ kept.nested
  inFlight := by rw [inFlight, kept.inFlight, guards]
  constructions := by rw [constructions, kept.constructions, guards]

theorem Kept.acquire (kept : s.Kept base count) : (s.step call (.direct .acquire)).Kept base count where
  nested := ⟨congrArg List.length kept.inFlight, kept.nested⟩
  inFlight := by
    show s.machine.heap.roots.inFlight = base ++ Guard.inOrder (_ :: s.guards)
    rw [Guard.inOrder_cons, List.append_nil, kept.inFlight]
  constructions := congrArg (· + 1) kept.constructions

theorem Kept.protect (kept : s.Kept base count) (x : Handle) : (s.step call (.direct (.protect x))).Kept base count := by
  obtain ⟨m, guards⟩ := s
  cases guards with
  | nil => exact kept
  | cons g outer =>
    refine ⟨kept.nested, ?_, kept.constructions⟩
    show m.heap.roots.inFlight ++ [x] = base ++ Guard.inOrder ({ g with kept := g.kept ++ [x] } :: outer)
    rw [kept.inFlight]
    simp

/-- Closing cuts the objects under construction at the depth, which is where the
outer constructions end. -/
theorem Kept.drop (kept : s.Kept base count) : (s.step call (.direct .drop)).Kept base count := by
  obtain ⟨m, guards⟩ := s
  cases guards with
  | nil => exact kept
  | cons g outer =>
    obtain ⟨depth, nested⟩ := kept.nested
    have inFlight := kept.inFlight
    have constructions := kept.constructions
    refine ⟨nested, ?_, ?_⟩
    · show m.heap.roots.inFlight.take g.depth = base ++ Guard.inOrder outer
      rw [inFlight, depth, Guard.inOrder_cons, ← List.append_assoc, List.take_left]
    · show m.heap.roots.constructions - 1 = count + outer.length
      rw [constructions]
      simp

/-- One call keeps the record right. -/
theorem Kept.step (tidy : call.Tidy) (kept : s.Kept base count) (c : SiteCall) : (s.step call c).Kept base count := by
  have untouched : ∀ {α : Type} {op : HeapM α} {c : HeapCall}, Takes Machine.NoCalls false false op →
      (s.step call (.direct c)).guards = s.guards →
      (s.step call (.direct c)).machine = (op.run s.machine).2 → (s.step call (.direct c)).Kept base count := by
    intro α op c takes guards machine
    have roots := (takes s.machine).roots fun _ _ none => none.elim
    exact kept.congr guards (by rw [machine, roots]) (by rw [machine, roots])
  cases c with
  | operation c =>
    obtain ⟨inFlight, constructions⟩ := c.inFlight_of_run tidy s.machine
    exact kept.congr rfl inFlight constructions
  | direct c =>
    cases c with
    | allocate p => exact untouched (takes_allocate p fun never => by cases never) rfl rfl
    | allocatePinned p pins => exact untouched (takes_allocatePinned p pins fun never => by cases never) rfl rfl
    | freeChunk x => exact untouched (takes_freeChunk x) rfl rfl
    | overwrite x p =>
      have roots : (s.step call (.direct (.overwrite x p))).machine.heap.roots = s.machine.heap.roots := by
        show ((HeapM.setPayload x p).run s.machine).2.heap.roots = _
        rw [HeapM.setPayload, run_bind, run_inspect]
        cases s.machine.heap.object x <;> rfl
      exact kept.congr rfl (by rw [roots]) (by rw [roots])
    | setGlobals | pushRoot | popRoot | truncateRoots => exact kept.congr rfl rfl rfl
    | acquire => exact kept.acquire
    | protect x => exact kept.protect x
    | drop => exact kept.drop
    | collect => exact untouched (takes_collectWith []) rfl rfl

/-- Every list of calls keeps the record right. -/
theorem Kept.run (tidy : call.Tidy) (kept : s.Kept base count) (calls : List SiteCall) :
    (s.run call calls).Kept base count := by
  induction calls generalizing s with
  | nil => exact kept
  | cons c rest ih => exact ih (kept.step tidy c)

end Site

/-! ### New heaps -/

theorem takes_makeConstants {tame : Bool} : Takes Machine.NoCalls tame true makeConstants := by
  have made : ∀ p, p.tag.descends = false → Takes Machine.NoCalls tame true (allocate p) := fun p kind =>
    takes_allocate p fun _ => kind
  refine (made _ rfl).bind fun _ => (takes_protect _).bind fun _ => (made _ rfl).bind fun _ => (takes_protect _).bind fun _ => ?_
  exact (made _ rfl).bind fun _ => (takes_protect _).bind fun _ => (made _ rfl).bind fun _ => (takes_protect _).bind fun _ =>
    takes_pure _

/-- A new heap has no roots and no construction under way. -/
theorem Machine.create_roots {config : HeapConfig} {m : Machine} (made : Machine.create config = (.ok (), m)) :
    m.heap.roots = {} := by
  have takes : Takes Machine.NoCalls false false (guarded makeConstants) := takes_makeConstants.guarded
  have inner := (takes { heap := { config } }).roots fun _ _ none => none.elim
  obtain ⟨constants, m', ran, heap⟩ := Machine.create_made made
  rw [heap]
  rw [show Heap.blank config = { config } from rfl] at ran
  rw [ran] at inner
  exact inner

/-! ### Failure -/

/-- What a failed operation leaves behind does not outlive the next collection,
unless the roots it was given, the constants or the pins of that collection lead
to it. -/
theorem Call.abandoned_freed {call : Interpreter} {c : Call} (tidy : call.Tidy) (others : c.onRoots = false)
    {m m' : Machine} {e : Error} (failed : (c.run call).run m = (.error e, m')) {pins : List Handle} {x : Handle}
    (unreached : ¬ m'.heap.arena.Reaches (m.heap.roots.toList ++ m'.heap.constants.toList ++ pins) x) :
    (m'.heap.collectWith pins).heap.isLive x = false := by
  have roots : m'.heap.roots = m.heap.roots := by
    have same := c.roots_of_run tidy others m
    rwa [failed] at same
  rw [← roots] at unreached
  cases survives : (m'.heap.collectWith pins).heap.isLive x with
  | false => rfl
  | true => exact absurd (reaches_of_isLive_collectWith survives) unreached

/-- **Constructions balance.** On every heap every operation, with any operands and
any outcome, hands back the roots it was given, if the interpreter it may call
does. A new heap has no roots. After any run, whatever was open at its start, the
objects under construction are those and what the constructions still open have
protected since, in order. And what a failed operation leaves behind is gone with
the next collection, unless something else leads to it. -/
theorem Call.constructions_balanced (call : Interpreter) (tidy : call.Tidy) :
    (∀ (c : Call) (m : Machine), c.onRoots = false → ((c.run call).run m).2.heap.roots = m.heap.roots) ∧
    (∀ config m, Machine.create config = (.ok (), m) → m.heap.roots = {}) ∧
    (∀ (m : Machine) (calls : List SiteCall),
      (Site.run call { machine := m } calls).machine.heap.roots.inFlight =
          m.heap.roots.inFlight ++ ((Site.run call { machine := m } calls).guards.reverse.map Guard.kept).flatten ∧
        (Site.run call { machine := m } calls).machine.heap.roots.constructions =
          m.heap.roots.constructions + (Site.run call { machine := m } calls).guards.length) ∧
    (∀ (c : Call) (m m' : Machine) (e : Error), c.onRoots = false → (c.run call).run m = (.error e, m') →
      ∀ pins x, ¬ m'.heap.arena.Reaches (m.heap.roots.toList ++ m'.heap.constants.toList ++ pins) x →
        (m'.heap.collectWith pins).heap.isLive x = false) := by
  refine ⟨fun c m others => c.roots_of_run tidy others m, fun config m made => Machine.create_roots made, ?_, ?_⟩
  · intro m calls
    have start : Site.Kept m.heap.roots.inFlight m.heap.roots.constructions { machine := m } :=
      ⟨trivial, (List.append_nil _).symm, rfl⟩
    have kept := start.run tidy calls
    exact ⟨kept.inFlight, kept.constructions⟩
  · intro c m m' e others failed pins x unreached
    exact Call.abandoned_freed tidy others failed unreached

/-! ### An instance -/

theorem Client.tidying_tidy : Interpreter.Tidy Client.tidying := by
  intro x args m
  show (m.heap.collectWith []).heap.roots = m.heap.roots
  rw [collectWith_heap]

/-- A new heap without room for a second segmented list. -/
abbrev cramped : Machine :=
  (Machine.create { arenaBytes := 40, maxChunkBytes := 40 }).2

/-- An attempt to make a table there. -/
abbrev Machine.tabled (m : Machine) : Except Error (List Handle) × Machine :=
  ((Call.create .dict).run Client.tidying).run m

/-- Constructions around an instantiation whose `__init__` collects. -/
abbrev aroundInstance : List SiteCall :=
  [.direct .acquire, .direct (.protect ⟨4⟩), .operation (.instantiate ⟨12⟩), .direct .acquire, .direct (.protect ⟨5⟩),
    .direct (.protect ⟨8⟩), .operation (.create .dict), .direct .acquire, .direct (.protect ⟨11⟩), .direct .drop]

/-- Nothing but the constants is reached where there is nothing but the constants to start from. -/
theorem cramped_unreached : ¬ cramped.tabled.2.heap.arena.Reaches
    (cramped.heap.roots.toList ++ cramped.tabled.2.heap.constants.toList ++ []) ⟨4⟩ := by
  have closed : ∀ x ∈ cramped.heap.roots.toList ++ cramped.tabled.2.heap.constants.toList ++ [],
      x ≠ ⟨4⟩ ∧ (cramped.tabled.2.heap.arena.get? x).map (fun o => o.payload.children) = some [] := by decide +kernel
  generalize cramped.heap.roots.toList ++ cramped.tabled.2.heap.constants.toList ++ [] = starts at closed
  generalize cramped.tabled.2.heap.arena = arena at closed
  have inside : ∀ x, arena.Reaches starts x → x ∈ starts := by
    intro x reached
    induction reached with
    | start member => exact member
    | edge _ found child ih =>
      have childless := (closed _ ih).2
      simp only [found, Option.map_some, Option.some.injEq] at childless
      rw [childless] at child
      cases child
  exact fun reached => (closed _ (inside _ reached)).1 rfl

/-- The table is not made for want of room, and its first part, left behind, is
collected; around an instantiation the open constructions keep what they hold. -/
theorem Call.constructions_balanced_cramped :
    Interpreter.Tidy Client.tidying ∧
      cramped.tabled.2.heap.roots = cramped.heap.roots ∧
      cramped.tabled.1.toOption = none ∧ cramped.tabled.2.heap.isLive ⟨4⟩ = true ∧
      (cramped.tabled.2.heap.collectWith []).heap.isLive ⟨4⟩ = false ∧
      (Site.run Client.tidying { machine := Client.declared.machine } aroundInstance).machine.heap.roots.inFlight =
        [⟨4⟩, ⟨5⟩, ⟨8⟩] := by
  obtain ⟨roots, -, inFlight, freed⟩ := Call.constructions_balanced Client.tidying Client.tidying_tidy
  have failed : cramped.tabled.1.toOption = none := by decide +kernel
  have held : Client.declared.machine.heap.roots.inFlight ++ ((Site.run Client.tidying
      { machine := Client.declared.machine } aroundInstance).guards.reverse.map Guard.kept).flatten =
        [⟨4⟩, ⟨5⟩, ⟨8⟩] := by decide +kernel
  refine ⟨Client.tidying_tidy, roots _ _ rfl, failed, by decide +kernel, ?_, (inFlight _ _).1.trans held⟩
  cases outcome : cramped.tabled.1 with
  | ok xs =>
    rw [outcome] at failed
    cases failed
  | error e => exact freed (.create .dict) cramped _ e rfl (Prod.ext outcome rfl) [] ⟨4⟩ cramped_unreached

end ChunkHeap

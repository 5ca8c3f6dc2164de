import ChunkHeap.Proofs.Checked
import ChunkHeap.Proofs.Likeness.Programs
import ChunkHeap.Proofs.Likeness.Segments
import Mathlib.Data.Set.Function

/-!
# Programs on two heaps

A program is a sequence of operations whose operands are numbers of earlier results, so
the same program runs on heaps of any size. Slots are used again, so a result is
more than a handle: a `Name` is current as long as its slot has not been given to another
object. Between two runs of a program a map takes the objects that one can see to
those that the other can see. One operation leads from one such map to the next
(`Stage.Paired.next`), and a whole run from map to map (`Stage.Paired.parallel`): whether and when
objects are collected does not show in the answers.
-/

namespace ChunkHeap
set_option autoImplicit false

open HeapM Heap

/-! ### Runs of a program -/

/-- A result: the object, and the length of the log when it was given out. -/
structure Name where
  object : Handle
  since : Nat

/-- The slot of the object has not been given to another one since. -/
def Name.Current (n : Name) (m : Machine) : Prop :=
  ∀ tag size, Event.allocated tag n.object.slot size ∉ m.log.toList.drop n.since

/-- A run between two operations. -/
structure Stage where
  machine : Machine
  /-- All results so far. -/
  names : List Name
  /-- What the last operation gave out. -/
  latest : List Handle

namespace Stage

/-- At first there are results for the constants. -/
def start (m : Machine) : Stage where
  machine := m
  names := m.heap.constants.toList.map fun x => ⟨x, m.log.size⟩
  latest := []

/-- The object with a number, None if there are not so many. -/
def object (s : Stage) (i : Nat) : Handle :=
  s.names[i]?.elim s.machine.heap.constants.none Name.object

/-- The operation on the objects that its operands name. -/
def perform (s : Stage) (op : Operation Nat) : Except Error Answer × Machine :=
  (op.map s.object).run.run s.machine

def answer (s : Stage) (op : Operation Nat) : Except Error Answer :=
  (s.perform op).1

/-- The stage after the machine has come to `m` and given out some objects. -/
def extend (s : Stage) (m : Machine) (given : List Handle) : Stage where
  machine := m
  names := s.names ++ given.map fun x => ⟨x, m.log.size⟩
  latest := given

def next (s : Stage) (op : Operation Nat) : Stage :=
  s.extend (s.perform op).2 ((s.answer op).toOption.elim [] Answer.handles)

/-- The roots lead to the object, or the last operation gave it out. -/
def Visible (s : Stage) (x : Handle) : Prop :=
  s.machine.heap.Rooted x ∨ x ∈ s.latest

/-- Every operand is a result that is still what it was, and the roots lead to it. What becomes a root may also
have just been given out. -/
def Admits (s : Stage) (op : Operation Nat) : Prop :=
  ∀ i ∈ op.operands, ∃ n, s.names[i]? = some n ∧ n.Current s.machine ∧
    (s.machine.heap.Rooted n.object ∨ op.adopts = true ∧ n.object ∈ s.latest)

/-- Every operation of the program is admitted when its turn comes. -/
def Admissible : List (Operation Nat) → Stage → Prop
  | [], _ => True
  | op :: ops, s => s.Admits op ∧ Admissible ops (s.next op)

/-- No operation of the program runs out of memory. -/
def Supplied : List (Operation Nat) → Stage → Prop
  | [], _ => True
  | op :: ops, s => (∀ e, s.answer op = .error e → e.kind ≠ .memory) ∧ Supplied ops (s.next op)

/-! ### Maps between two runs -/

variable {s s' t t' : Stage} {f k : Handle → Handle}

/-- The map `f` is one to one between what can be seen at two stages. It takes payloads to payloads, up to cursors,
roots to roots and results to results. -/
structure Corresponds (f : Handle → Handle) (s s' : Stage) : Prop where
  bijective : Set.BijOn f {x | s.Visible x} {y | s'.Visible y}
  payload : ∀ x, s.Visible x → ∃ p q, s.machine.heap.find? x = some p ∧ s'.machine.heap.find? (f x) = some q ∧
    q.still = (p.map f).still
  roots : s'.machine.heap.roots = s.machine.heap.roots.map f
  latest : s'.latest = s.latest.map f
  results : ∀ (i : Nat) (n : Name), s.names[i]? = some n → n.Current s.machine → s.Visible n.object →
    ∃ n', s'.names[i]? = some n' ∧ n'.object = f n.object ∧ n'.Current s'.machine

/-- From the stages `s` and `s'` to `t` and `t'` an object that is not new keeps its image, and a new one has a new
image. No operation gives out segments; where the map takes them follows from where it takes their list, since it
takes links to links. -/
def Maintains (f : Handle → Handle) (s s' : Stage) (k : Handle → Handle) (t t' : Stage) : Prop :=
  ∀ x p, t.Visible x → t.machine.heap.find? x = some p → p.tag ≠ .segment →
    (k x = f x ∧ ¬ s.machine.Born t.machine x ∧ ¬ s'.machine.Born t'.machine (k x)) ∨
      s.machine.Born t.machine x ∧ s'.machine.Born t'.machine (k x)

/-- Two runs of a program that correspond step by step: after each operation a map gives the answer of one run for
the answer of the other. -/
def Parallel : List (Operation Nat) → (Handle → Handle) → Stage → Stage → Prop
  | [], _, _, _ => True
  | op :: ops, f, s, s' => ∃ k : Handle → Handle, s'.answer op = (s.answer op).map (Answer.map k) ∧
      Corresponds k (s.next op) (s'.next op) ∧ Maintains f s s' k (s.next op) (s'.next op) ∧ Parallel ops k (s.next op) (s'.next op)

end Stage

/-! ### Current names -/

theorem Name.current_iff {n : Name} {m m' : Machine} (earlier : n.since ≤ m.log.size) (reported : m.log.toList <+: m'.log.toList) :
    n.Current m' ↔ n.Current m ∧ ¬ m.Born m' n.object := by
  obtain ⟨after, same⟩ := reported
  have later : m'.log.toList.drop m.log.size = after := by
    rw [← same]
    exact List.drop_left
  have whole : m'.log.toList.drop n.since = m.log.toList.drop n.since ++ after := by
    rw [← same, List.drop_append_of_le_length earlier]
  simp only [Name.Current, Machine.Born, whole, later, List.mem_append, not_or, not_exists]
  exact ⟨fun none => ⟨fun tag size => (none tag size).1, fun tag size => (none tag size).2⟩,
    fun none tag size => ⟨none.1 tag size, none.2 tag size⟩⟩

/-- A result is current when it is given out. -/
theorem Name.current_now (x : Handle) (m : Machine) : Name.Current ⟨x, m.log.size⟩ m := by
  intro tag size event
  rw [show m.log.toList.drop m.log.size = [] from List.drop_of_length_le (Nat.le_refl _)] at event
  cases event

namespace Stage

variable {φ φ' : Pairing} {s s' : Stage} {op : Operation Nat} {m m' : Machine} {n : Name} {i : Nat} {x y : Handle}
  {f : Handle → Handle} {given : List Handle}

/-! ### The invariant -/

/-- Two runs of a program at stages whose heaps mirror each other, with partners as results. -/
structure Paired (φ : Pairing) (s s' : Stage) : Prop where
  mirrors : φ.Mirrors s.machine.heap s'.machine.heap
  balanced : s.machine.heap.Balanced
  earlier : ∀ n ∈ s.names, n.since ≤ s.machine.log.size
  earlier' : ∀ n ∈ s'.names, n.since ≤ s'.machine.log.size
  length : s'.names.length = s.names.length
  /-- No result is a segment. -/
  elements : ∀ n ∈ s.names, n.Current s.machine → ∀ p, s.machine.heap.find? n.object = some p → p.tag ≠ .segment
  results : ∀ (i : Nat) (n : Name), s.names[i]? = some n → n.Current s.machine → φ.covers n.object →
    ∃ n', s'.names[i]? = some n' ∧ n'.object = φ.partner n.object ∧ n'.Current s'.machine
  latest : s'.latest = s.latest.map φ.partner
  covered : ∀ x ∈ s.latest, φ.covers x

namespace Paired

/-- A result that can be seen is covered. -/
theorem covers_result (paired : Paired φ s s') (member : n ∈ s.names) (current : n.Current s.machine)
    (visible : s.Visible n.object) : φ.covers n.object := by
  rcases visible with rooted | recent
  · rcases paired.mirrors.sound.rooted_cases rooted with element | ⟨l, c, -, carries, inside⟩
    · exact (paired.mirrors.rooted ⟨rooted, element⟩).1
    · obtain ⟨r, segment⟩ := carries.linked.segment inside
      exact absurd rfl (paired.elements n member current _ segment)
  · exact paired.covered _ recent

/-- The operands of an admitted operation are covered, and the other run has their partners. -/
theorem operands (paired : Paired φ s s') (admits : s.Admits op) :
    (∀ x ∈ (op.map s.object).operands, φ.covers x) ∧ op.map s'.object = (op.map s.object).map φ.partner := by
  have each : ∀ i ∈ op.operands, φ.covers (s.object i) ∧ s'.object i = φ.partner (s.object i) := by
    intro i operand
    obtain ⟨n, named, current, reach⟩ := admits i operand
    have covered := paired.covers_result (List.mem_of_getElem? named) current (reach.imp_right And.right)
    obtain ⟨n', named', partner, -⟩ := paired.results i n named current covered
    have here : s.object i = n.object := by simp [object, named]
    have there : s'.object i = n'.object := by simp [object, named']
    rw [here, there, partner]
    exact ⟨covered, rfl⟩
  refine ⟨fun x operand => ?_, op.map_eq_map_map fun i operand => (each i operand).2⟩
  rw [Operation.operands_map] at operand
  obtain ⟨i, member, rfl⟩ := List.mem_map.1 operand
  exact (each i member).1

/-- What both runs give out joins the results. -/
theorem extend (paired : Paired φ s s') (mirrors : φ'.Mirrors m.heap m'.heap)
    (continues : φ.Continues φ' s.machine s'.machine m m') (balanced : m.heap.Balanced)
    (tags : ∀ x q, m.heap.find? x = some q → s.machine.Born m x ∨ ∃ p, s.machine.heap.find? x = some p ∧ p.tag = q.tag)
    (covered : ∀ x ∈ given, φ'.covers x) : Paired φ' (s.extend m given) (s'.extend m' (given.map φ'.partner)) := by
  have size : s.machine.log.size ≤ m.log.size := continues.reported.length_le
  have size' : s'.machine.log.size ≤ m'.log.size := continues.reported'.length_le
  refine ⟨mirrors, balanced, fun n member => ?_, fun n member => ?_, ?_, fun n member current p found => ?_, fun i n named current inside => ?_,
    rfl, covered⟩
  · rcases List.mem_append.1 member with old | new
    · exact (paired.earlier n old).trans size
    · obtain ⟨x, -, rfl⟩ := List.mem_map.1 new
      exact Nat.le_refl _
  · rcases List.mem_append.1 member with old | new
    · exact (paired.earlier' n old).trans size'
    · obtain ⟨x, -, rfl⟩ := List.mem_map.1 new
      exact Nat.le_refl _
  · simp [Stage.extend, paired.length]
  · rcases List.mem_append.1 member with old | new
    · obtain ⟨before, unborn⟩ := (Name.current_iff (paired.earlier n old) continues.reported).1 current
      obtain ⟨q, found', tag⟩ := (tags _ p found).resolve_left unborn
      rw [← tag]
      exact paired.elements n old before q found'
    · obtain ⟨x, here, rfl⟩ := List.mem_map.1 new
      obtain ⟨⟨q, live, tag⟩, -⟩ := mirrors.element (covered x here)
      obtain rfl : q = p := Option.some.inj (live.symm.trans found)
      exact tag
  · -- an old result keeps its partner as long as its slot is not given to another object
    by_cases old : i < s.names.length
    · have before : s.names[i]? = some n := by rwa [Stage.extend, List.getElem?_append_left old] at named
      have member := List.mem_of_getElem? before
      obtain ⟨current', unborn⟩ := (Name.current_iff (paired.earlier n member) continues.reported).1 current
      obtain ⟨start, same, -, unborn'⟩ := (continues.pairs _ inside).resolve_right fun born => unborn born.1
      obtain ⟨n', named', object, still⟩ := paired.results i n before current' start
      refine ⟨n', ?_, object.trans same.symm, ?_⟩
      · rw [Stage.extend, List.getElem?_append_left (by rwa [paired.length])]
        exact named'
      · refine (Name.current_iff (paired.earlier' n' (List.mem_of_getElem? named')) continues.reported').2 ⟨still, ?_⟩
        rwa [object, ← same]
    · rw [Stage.extend, List.getElem?_append_right (by omega), List.getElem?_map] at named
      obtain ⟨x, here, rfl⟩ := Option.map_eq_some_iff.1 named
      refine ⟨⟨φ'.partner x, m'.log.size⟩, ?_, rfl, Name.current_now _ _⟩
      rw [Stage.extend, List.getElem?_append_right (by rw [paired.length]; omega), paired.length, List.map_map, List.getElem?_map, here]
      rfl

/-- One operation leads from paired stages to paired stages, with answers that correspond. -/
theorem next (paired : Paired φ s s') (admits : s.Admits op) (supplied : ∀ e, s.answer op = .error e → e.kind ≠ .memory)
    (supplied' : ∀ e, s'.answer op = .error e → e.kind ≠ .memory) :
    ∃ φ', Paired φ' (s.next op) (s'.next op) ∧
      φ.Continues φ' s.machine s'.machine (s.next op).machine (s'.next op).machine ∧
      s'.answer op = (s.answer op).map (Answer.map φ'.partner) ∧
      ∀ a, s.answer op = .ok a → ∀ x ∈ a.handles, φ'.covers x := by
  obtain ⟨covered, same⟩ := paired.operands admits
  have rooted : (op.map s.object).adopts = false → ∀ x ∈ (op.map s.object).operands, s.machine.heap.Rooted x := by
    intro plain x operand
    rw [Operation.adopts_map] at plain
    rw [Operation.operands_map] at operand
    obtain ⟨i, member, rfl⟩ := List.mem_map.1 operand
    obtain ⟨n, named, -, rooted | ⟨adopts, -⟩⟩ := admits i member
    · rwa [object, named]
    · rw [plain] at adopts
      cases adopts
  have agree : φ.Agree s.machine s'.machine Pairing.Answers (s.perform op) (s'.perform op) := by
    rw [perform, perform, same]
    exact Pairing.agree_operation _ paired.mirrors covered rooted
  obtain ⟨-, balanced, tags⟩ := (op.map s.object).run_keeps paired.balanced
  change (s.perform op).2.heap.Balanced at balanced
  change ∀ x q, (s.perform op).2.heap.find? x = some q → s.machine.Born (s.perform op).2 x ∨ _ at tags
  unfold Stage.next
  unfold answer at supplied supplied' ⊢
  generalize s.perform op = result at agree balanced tags supplied
  generalize s'.perform op = result' at agree supplied'
  cases agree with
  | exhausted memory => exact absurd memory (supplied _ rfl)
  | exhausted' memory => exact absurd memory (supplied' _ rfl)
  | failed mirrors continues =>
    exact ⟨_, paired.extend mirrors continues balanced tags (List.forall_mem_nil _), continues, rfl, nofun⟩
  | @done a b m₁ m₂ φ' mirrors continues holds =>
    obtain ⟨given, rfl⟩ := holds
    have extended := paired.extend mirrors continues balanced tags given
    rw [← Answer.handles_map] at extended
    exact ⟨φ', extended, continues, rfl, fun _ same => by cases same; exact given⟩

/-! ### From pairings to maps -/

/-- What can be seen has its image among what the other run can see. -/
theorem visible (paired : Paired φ s s') (follows : ∀ x y, φ.Spread s.machine.heap s'.machine.heap x y → f x = y)
    (visible : s.Visible x) : φ.Spread s.machine.heap s'.machine.heap x (f x) ∧ s'.Visible (f x) := by
  rcases visible with rooted | recent
  · obtain ⟨y, pair, rooted'⟩ := paired.mirrors.spread_rooted rooted
    rw [follows x y pair]
    exact ⟨pair, .inl rooted'⟩
  · have pair := Pairing.Spread.element (h := s.machine.heap) (g := s'.machine.heap) (paired.covered x recent)
    rw [follows x _ pair]
    refine ⟨pair, .inr ?_⟩
    rw [paired.latest]
    exact List.mem_map_of_mem recent

theorem exists_visible (paired : Paired φ s s') (visible : s'.Visible y) :
    ∃ x, s.Visible x ∧ φ.Spread s.machine.heap s'.machine.heap x y := by
  rcases visible with rooted | recent
  · obtain ⟨x, pair, rooted'⟩ := paired.mirrors.exists_spread rooted
    exact ⟨x, .inl rooted', pair⟩
  · rw [paired.latest] at recent
    obtain ⟨x, inside, rfl⟩ := List.mem_map.1 recent
    exact ⟨x, .inr inside, .element (paired.covered x inside)⟩

/-- What can be seen is live. -/
theorem live (paired : Paired φ s s') (visible : s.Visible x) : ∃ p, s.machine.heap.find? x = some p := by
  rcases visible with rooted | recent
  · refine paired.mirrors.sound.live_of_reaches (fun y root => ?_) rooted
    exact (paired.mirrors.sound.roots y root).imp fun _ facts => facts.1
  · exact (paired.mirrors.element (paired.covered x recent)).1.imp fun _ facts => facts.1

theorem corresponds (paired : Paired φ s s') (follows : ∀ x y, φ.Spread s.machine.heap s'.machine.heap x y → f x = y) :
    Corresponds f s s' := by
  have follow : ∀ x, φ.covers x → φ.partner x = f x := fun x covered => (follows _ _ (.element covered)).symm
  refine ⟨⟨fun x visible => (paired.visible follows visible).2, ?_, ?_⟩, fun x visible => ?_, ?_, ?_, fun i n named current visible => ?_⟩
  · intro x here x' here' same
    have pair := (paired.visible follows here).1
    rw [same] at pair
    exact paired.mirrors.spread_injective pair (paired.visible follows here').1
  · intro y there
    obtain ⟨x, here, pair⟩ := paired.exists_visible there
    exact ⟨x, here, follows x y pair⟩
  · obtain ⟨p, found⟩ := paired.live visible
    obtain ⟨q, found', same⟩ := paired.mirrors.spread_payload follows (paired.visible follows visible).1 found
    exact ⟨p, q, found, found', same⟩
  · rw [paired.mirrors.roots]
    exact RootSet.map_congr fun x root => follow x (paired.mirrors.covers_root root)
  · rw [paired.latest]
    exact List.map_congr_left fun x recent => follow x (paired.covered x recent)
  · have covered := paired.covers_result (List.mem_of_getElem? named) current visible
    rw [← follow _ covered]
    exact paired.results i n named current covered

theorem maintains {t t' : Stage} {k : Handle → Handle} (paired : Paired φ' t t')
    (continues : φ.Continues φ' s.machine s'.machine t.machine t'.machine)
    (follows : ∀ x y, φ.Spread s.machine.heap s'.machine.heap x y → f x = y)
    (follows' : ∀ x y, φ'.Spread t.machine.heap t'.machine.heap x y → k x = y) : Maintains f s s' k t t' := by
  intro x p visible found other
  have covered : φ'.covers x := by
    rcases visible with rooted | recent
    · exact (paired.mirrors.rooted ⟨rooted, p, found, other⟩).1
    · exact paired.covered x recent
  rw [follows' x _ (.element covered)]
  rcases continues.pairs x covered with ⟨before, same, unborn, unborn'⟩ | born
  · exact .inl ⟨same.trans (follows x _ (.element before)).symm, unborn, unborn'⟩
  · exact .inr born

/-- Two runs of a program from paired stages correspond step by step. -/
theorem parallel (program : List (Operation Nat)) (paired : Paired φ s s')
    (follows : ∀ x y, φ.Spread s.machine.heap s'.machine.heap x y → f x = y) (admissible : Admissible program s)
    (supplied : Supplied program s) (supplied' : Supplied program s') : Parallel program f s s' := by
  induction program generalizing φ s s' f with
  | nil => trivial
  | cons op program ih =>
    obtain ⟨φ', paired', continues, answer, given⟩ := paired.next admissible.1 supplied.1 supplied'.1
    obtain ⟨k, follows'⟩ := paired'.mirrors.exists_following
    refine ⟨k, ?_, paired'.corresponds follows', paired'.maintains continues follows follows', ?_⟩
    · rw [answer]
      cases outcome : s.answer op with
      | error e => rfl
      | ok a => exact congrArg Except.ok (Answer.map_congr fun x here => (follows' _ _ (.element (given a outcome x here))).symm)
    · exact ih paired' follows' admissible.2 supplied.2 supplied'.2

end Paired

/-! ### New heaps -/

/-- The constant of one heap for that of another. -/
def exchange (c c' : Constants) (x : Handle) : Handle :=
  if x = c.none then c'.none
  else if x = c.minusOne then c'.minusOne
  else if x = c.zero then c'.zero
  else c'.one

theorem exchange_constants {h : Heap} {c : Constants} (furnishes : h.Furnishes c) (c' : Constants) :
    exchange c c' c.none = c'.none ∧ exchange c c' c.minusOne = c'.minusOne ∧ exchange c c' c.zero = c'.zero ∧
      exchange c c' c.one = c'.one := by
  have apart : ∀ {x y p q}, h.find? x = some p → h.find? y = some q → p ≠ q → x ≠ y := by
    rintro x y p q found found' different rfl
    exact different (Option.some.inj (found.symm.trans found'))
  have minusOne : c.minusOne ≠ c.none := apart furnishes.minusOne furnishes.none nofun
  have zero : c.zero ≠ c.none := apart furnishes.zero furnishes.none nofun
  have zero' : c.zero ≠ c.minusOne := apart furnishes.zero furnishes.minusOne (by decide)
  have one : c.one ≠ c.none := apart furnishes.one furnishes.none nofun
  have one' : c.one ≠ c.minusOne := apart furnishes.one furnishes.minusOne (by decide)
  have one'' : c.one ≠ c.zero := apart furnishes.one furnishes.zero (by decide)
  simp [exchange, minusOne, zero, zero', one, one', one'']

/-- Two new heaps mirror each other in their constants. -/
theorem mirrors_start {h g : Heap} (sound : h.Sound none) (sound' : g.Sound none) (roots : h.roots = {}) (roots' : g.roots = {})
    (furnished : h.Furnishes h.constants) (furnished' : g.Furnishes g.constants) :
    (Pairing.mk (· ∈ h.constants.toList) (exchange h.constants g.constants)).Mirrors h g := by
  obtain ⟨none, minusOne, zero, one⟩ := exchange_constants furnished g.constants
  obtain ⟨none', minusOne', zero', one'⟩ := exchange_constants furnished' h.constants
  have inverse : ∀ x ∈ h.constants.toList, exchange g.constants h.constants (exchange h.constants g.constants x) = x := by
    simp only [Constants.toList, List.forall_mem_cons]
    rw [none, minusOne, zero, one]
    exact ⟨none', minusOne', zero', one', List.forall_mem_nil _⟩
  have constants : g.constants = h.constants.map (exchange h.constants g.constants) := by
    rw [Constants.map, none, minusOne, zero, one]
  have alike : ∀ x ∈ h.constants.toList, ∃ p, h.find? x = some p ∧
      g.find? (exchange h.constants g.constants x) = some p ∧ p.IsConstant := by
    simp only [Constants.toList, List.forall_mem_cons]
    rw [none, minusOne, zero, one]
    exact ⟨⟨_, furnished.none, furnished'.none, trivial⟩, ⟨_, furnished.minusOne, furnished'.minusOne, trivial⟩,
      ⟨_, furnished.zero, furnished'.zero, trivial⟩, ⟨_, furnished.one, furnished'.one, trivial⟩, List.forall_mem_nil _⟩
  refine ⟨sound, sound', fun x y here there same => ?_, fun x here => ?_, ?_, constants, fun x root => ?_⟩
  · rw [← inverse x here, ← inverse y there]
    exact congrArg _ same
  · obtain ⟨p, found, found', constant⟩ := alike x here
    obtain ⟨refs, -, list, segment⟩ := constant.facts
    have fixed : p.map (exchange h.constants g.constants) = p := by cases p <;> first | rfl | exact constant.elim
    refine ⟨.record p, content?_of_record found list segment, ?_, fun y ref => ?_⟩
    · rw [Content.map, fixed]
      exact content?_of_record found' list segment
    · rw [Content.refs, refs] at ref
      cases ref
  · rw [roots, roots']
    rfl
  · simpa [Heap.collectionRoots, roots, RootSet.toList] using root

/-- Two runs start at paired stages. -/
theorem paired_start {config config' : HeapConfig} {m m' : Machine} (made : Machine.create config = (.ok (), m))
    (made' : Machine.create config' = (.ok (), m')) :
    Paired ⟨(· ∈ m.heap.constants.toList), exchange m.heap.constants m'.heap.constants⟩ (start m) (start m') := by
  obtain ⟨sound, -, furnished⟩ := Machine.create_furnished made
  obtain ⟨sound', -, furnished'⟩ := Machine.create_furnished made'
  have mirrors := mirrors_start sound sound' (Machine.create_roots made) (Machine.create_roots made') furnished furnished'
  refine ⟨mirrors, (Machine.create_balanced made).1, fun n member => ?_, fun n member => ?_, rfl, fun n member _ p found => ?_,
    fun i n named _ _ => ?_, rfl, List.forall_mem_nil _⟩
  · obtain ⟨x, -, rfl⟩ := List.mem_map.1 member
    exact Nat.le_refl _
  · obtain ⟨x, -, rfl⟩ := List.mem_map.1 member
    exact Nat.le_refl _
  · obtain ⟨x, constant, rfl⟩ := List.mem_map.1 member
    obtain ⟨⟨q, live, tag⟩, -⟩ := mirrors.element constant
    obtain rfl : q = p := Option.some.inj (live.symm.trans found)
    exact tag
  · rw [start, List.getElem?_map] at named
    obtain ⟨x, here, rfl⟩ := Option.map_eq_some_iff.1 named
    refine ⟨⟨exchange m.heap.constants m'.heap.constants x, m'.log.size⟩, ?_, rfl, Name.current_now _ _⟩
    have same : m'.heap.constants.toList = m.heap.constants.toList.map (exchange m.heap.constants m'.heap.constants) :=
      congrArg Constants.toList mirrors.constants
    rw [start, same, List.map_map, List.getElem?_map, here]
    rfl

/-- **Collection does not show.** A program runs on two new heaps with settings of any kind. Each operand is a result
that is still within reach of the roots, or has just been given out and becomes a root. If neither run is ever short of
memory, their answers are the same, step by step, up to a map that is one to one between what the roots lead to
and what has just been given out in the two heaps, and that goes on with every step. -/
theorem collection_unobservable {config config' : HeapConfig} {m m' : Machine} (program : List (Operation Nat))
    (made : Machine.create config = (.ok (), m)) (made' : Machine.create config' = (.ok (), m'))
    (admissible : Admissible program (start m)) (supplied : Supplied program (start m)) (supplied' : Supplied program (start m')) :
    ∃ f, Corresponds f (start m) (start m') ∧ Parallel program f (start m) (start m') := by
  have paired := paired_start made made'
  obtain ⟨f, follows⟩ := paired.mirrors.exists_following
  exact ⟨f, paired.corresponds follows, paired.parallel program follows admissible supplied supplied'⟩

/-! ### An instance -/

/-- Whether the operands of an operation are admitted: a collection would keep them. -/
def admits (s : Stage) (op : Operation Nat) : Bool :=
  op.operands.all fun i => s.names[i]?.any fun n =>
    ((s.machine.log.toList.drop n.since).all fun
      | .allocated _ slot _ => slot != n.object.slot
      | _ => true) &&
    ((s.machine.heap.collectWith []).heap.isLive n.object || op.adopts && s.latest.contains n.object)

/-- Whether an operation does not run out of memory. -/
def supplies (s : Stage) (op : Operation Nat) : Bool :=
  match s.answer op with
  | .error e => e.kind != .memory
  | .ok _ => true

theorem admissible_of_passes {program : List (Operation Nat)}
    (checked : passes (fun op s => s.next op) (fun op s => s.admits op) program s = true) : Admissible program s := by
  refine of_passes (P := Admissible) (fun _ => trivial) (fun op rest s admitted later => ⟨fun i operand => ?_, later⟩) checked
  obtain ⟨n, named, passed⟩ := (Option.any_eq_true _ _).1 (List.all_eq_true.1 admitted i operand)
  rw [Bool.and_eq_true, Bool.or_eq_true, Bool.and_eq_true] at passed
  obtain ⟨current, reach⟩ := passed
  refine ⟨n, named, fun tag size event => ?_, reach.imp reaches_of_isLive_collectWith (And.imp_right List.contains_iff_mem.1)⟩
  simpa using List.all_eq_true.1 current _ event

theorem supplied_of_passes {program : List (Operation Nat)}
    (checked : passes (fun op s => s.next op) (fun op s => s.supplies op) program s = true) : Supplied program s := by
  refine of_passes (P := Supplied) (fun _ => trivial) (fun op rest s supplied later => ⟨fun e failed => ?_, later⟩) checked
  rw [supplies, failed] at supplied
  simpa using supplied

/-- A heap that has to collect, and one that never does. -/
def tight : HeapConfig := { arenaBytes := 80, maxChunkBytes := 32 }

def ample : HeapConfig := { arenaBytes := 4096, maxChunkBytes := 32, collectOnExhaustion := false }

/-- Fill a list, with a string lost on the way, and look at it. -/
def rounds : List (Operation Nat) :=
  [.act .list, .root (.pushRoot 4), .act (.str "lost"), .act (.listAppend 4 3), .act (.str "kept"), .root (.pushRoot 6),
    .act (.listAppend 4 6), .root .popRoot, .read (.render 4), .act (.listGet 4 (-1)), .act (.listGet 4 7), .read (.compare 4 6)]

theorem collection_unobservable_tight :
    Machine.create tight = (.ok (), (Machine.create tight).2) ∧ Machine.create ample = (.ok (), (Machine.create ample).2) ∧
      Admissible rounds (start (Machine.create tight).2) ∧ Supplied rounds (start (Machine.create tight).2) ∧
      Supplied rounds (start (Machine.create ample).2) ∧
      (rounds.foldl next (start (Machine.create tight).2)).object 6 ≠ (rounds.foldl next (start (Machine.create ample).2)).object 6 ∧
      ∃ f, Corresponds f (start (Machine.create tight).2) (start (Machine.create ample).2) ∧
        Parallel rounds f (start (Machine.create tight).2) (start (Machine.create ample).2) := by
  have made : Machine.create tight = (.ok (), (Machine.create tight).2) := by rfl
  have made' : Machine.create ample = (.ok (), (Machine.create ample).2) := by rfl
  have admissible : Admissible rounds (start (Machine.create tight).2) := admissible_of_passes (by decide +kernel)
  have supplied : Supplied rounds (start (Machine.create tight).2) := supplied_of_passes (by decide +kernel)
  have supplied' : Supplied rounds (start (Machine.create ample).2) := supplied_of_passes (by decide +kernel)
  exact ⟨made, made', admissible, supplied, supplied', by decide +kernel,
    collection_unobservable rounds made made' admissible supplied supplied'⟩

end Stage

end ChunkHeap

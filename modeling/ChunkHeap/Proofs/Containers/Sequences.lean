import ChunkHeap.Proofs.Containers.Effects
import ChunkHeap.Proofs.Guards

/-!
# Lists are sequences

`ListCall.onList` says what the operations on lists do to a plain sequence, where
an index below zero counts from the end. In a heap in order, with a budget that a
word can count, every list that the roots lead to behaves like the sequence of its
elements (`ListCall.calls_follow_sequence`), through any number of calls on it and
on other lists: an index out of range is refused with nothing changed, an element
that is not found leaves the list alone, and so does a call that finds no room.
-/

namespace ChunkHeap
set_option autoImplicit false

open HeapM Heap

/-! ### Indices -/

namespace Position

variable {index : Int} {length i : Nat}

/-- The position that an index stands for, counted from the front. It need not lie
in the sequence. -/
def fromFront (index : Int) (length : Nat) : Int :=
  if index < 0 then index + length else index

/-- The position of the element that an index names. -/
def place (index : Int) (length : Nat) : Option Nat :=
  let n := fromFront index length
  if 0 ≤ n ∧ n < length then some n.toNat else none

theorem normalize_eq (index : Int) (short : length < 1 <<< 63) : normalize index length = fromFront index length := by
  rw [normalize, fromFront, signedWord_of_lt short]

theorem element?_eq (index : Int) (short : length < 1 <<< 63) : element? index length = place index length := by
  simp only [element?, place, normalize_eq index short]
  refine if_congr ?_ rfl rfl
  omega

/-- The position nearest to where an index points, among those from `low` to `length`. -/
def nearest (index : Int) (low length : Nat) : Nat :=
  (max (low : Int) (min (fromFront index length) length)).toNat

theorem clamp_eq_nearest (index : Int) (low : Nat) (short : length < 1 <<< 63) :
    clamp index low length = nearest index low length := by
  rw [clamp, nearest, normalize_eq index short, signedWord_of_lt short]

theorem clamp_eq (index : Int) (short : length < 1 <<< 63) :
    clamp index 0 length = (max 0 (min (fromFront index length) length)).toNat :=
  clamp_eq_nearest index 0 short

theorem element?_natCast (inside : i < length) : element? i length = some i := by
  have front : ¬ (i : Int) < 0 := by omega
  simp [element?, normalize, front, inside]

/-- Counting from the end or from the front comes to the same. -/
theorem normalize_sub_length (short : length < 1 <<< 63) (inside : i < length) :
    normalize ((i : Int) - length) length = normalize i length := by
  rw [normalize_eq _ short, normalize_eq _ short, fromFront, fromFront, if_pos (by omega), if_neg (by omega)]
  omega

end Position

/-! ### Calls -/

/-- A call on a list. -/
inductive ListCall where
  | get (index : Int)
  | set (index : Int) (x : Handle)
  | removeAt (index : Int)
  | insert (index : Int) (x : Handle)
  | append (x : Handle)
  | clear
  | indexOf (value : Handle)
  | remove (value : Handle)

/-- What a call answers. -/
inductive ListAnswer where
  | done
  | element (x : Handle)
  | position (i : Nat)

namespace ListCall

/-- What a call does to a plain sequence, and its answer, where `same` says whether
an element is the value sought. -/
def onList (same : Handle → Handle → Except Error Bool) (xs : List Handle) :
    ListCall → Except Error (List Handle × ListAnswer)
  | get index =>
    match (Position.place index xs.length).bind (xs[·]?) with
    | some x => .ok (xs, .element x)
    | none => .error .listRange
  | set index x =>
    match Position.place index xs.length with
    | some n => .ok (xs.set n x, .done)
    | none => .error .listRange
  | removeAt index =>
    match Position.place index xs.length with
    | some n => .ok (xs.eraseIdx n, .done)
    | none => .error .listRange
  | insert index x => .ok (xs.insertIdx (max 0 (min (Position.fromFront index xs.length) xs.length)).toNat x, .done)
  | append x => .ok (xs ++ [x], .done)
  | clear => .ok ([], .done)
  | indexOf value => do
    match ← search (same value) xs with
    | some n => .ok (xs, .position n)
    | none => .error .notInList
  | remove value => do
    match ← search (same value) xs with
    | some n => .ok (xs.eraseIdx n, .done)
    | none => .error .notInList

/-- The call on a list of the heap. -/
def onHeap (l : Handle) : ListCall → HeapM ListAnswer
  | get index => .element <$> ListObject.get l index
  | set index x => do ListObject.set l index x; return .done
  | removeAt index => do ListObject.removeAt l index; return .done
  | insert index x => do ListObject.insert l index x; return .done
  | append x => do ListObject.append l x; return .done
  | clear => do ListObject.clear l; return .done
  | indexOf value => .position <$> ListObject.indexOf l value
  | remove value => do ListObject.remove l value; return .done

/-- The objects that a call is given. -/
def operands : ListCall → List Handle
  | set _ x | insert _ x | append x => [x]
  | indexOf value | remove value => [value]
  | get _ | removeAt _ | clear => []

/-- Whether a call may need a chunk. -/
def grows : ListCall → Bool
  | append _ | insert _ _ => true
  | _ => false

/-- Whether a call looks for an element. -/
def seeks : ListCall → Bool
  | indexOf _ | remove _ => true
  | _ => false

/-- The index of a call at a position. -/
def index? : ListCall → Option Int
  | get index | set index _ | removeAt index | insert index _ => some index
  | _ => none

/-- The same call with another index. -/
def reindexed (index : Int) : ListCall → ListCall
  | get _ => get index
  | set _ x => set index x
  | removeAt _ => removeAt index
  | insert _ x => insert index x
  | call => call

/-- How a call on a list with the elements `xs` has to end, and with what elements
it leaves the list. -/
inductive Outcome (call : ListCall) (xs : List Handle) (m : Machine) :
    List Handle → Except Error ListAnswer × Machine → Prop
  /-- The index is out of range, and nothing has changed. -/
  | outOfRange (effect : call.onList m.heap.sameAs xs = .error .listRange) : Outcome call xs m xs (.error .listRange, m)
  /-- The element sought is not there, or a comparison before it has failed. -/
  | notFound {e : Error} {m' : Machine} (seeks : call.seeks = true) (effect : call.onList m.heap.sameAs xs = .error e) :
      Outcome call xs m xs (.error e, m')
  /-- The call has the effect and the answer it has on the sequence. -/
  | done {ys : List Handle} {answer : ListAnswer} {m' : Machine}
      (effect : call.onList m.heap.sameAs xs = .ok (ys, answer)) : Outcome call xs m ys (.ok answer, m')
  /-- A segment is needed, and there is no room for one. -/
  | noRoom {e : Error} {m' : Machine} (grows : call.grows = true) (memory : e.kind = .memory)
      (full : Brimming xs.length m'.heap) : Outcome call xs m xs (.error e, m')

end ListCall

/-! ### Heaps that a word can count -/

namespace Heap

variable {h : Heap} {s : Handle} {xs : List Handle}

/-- A sound heap within its budget, and that within what a word can count. -/
structure Regular (h : Heap) : Prop where
  sound : h.Sound none
  balanced : h.Balanced
  word : h.config.arenaBytes < 1 <<< 64

/-- The segments of a list are too large for the list to be longer than a signed word. -/
theorem Regular.short (regular : h.Regular) (shown : h.content? s = some (.items xs)) : xs.length < 1 <<< 63 := by
  obtain ⟨c, ⟨r, found, chained⟩, rfl⟩ := regular.sound.carries_of_items shown
  have heavy : 20 * (c.map Prod.fst).length ≤ h.arena.chunkTotal := by
    refine Arena.mul_length_le_weight chained.distinct fun t member => ?_
    obtain ⟨q, segment⟩ := chained.linked.segment member
    obtain ⟨o, live, payload⟩ := find?_eq_some_iff.1 segment
    have size := (regular.sound.headed t o live).2
    rw [payload, Payload.chunkBytes_segment] at size
    exact ⟨o, live, Nat.le_of_eq size.symm⟩
  have budget := regular.balanced.budget
  rw [regular.balanced.accounted.bytes] at budget
  have word := regular.word
  have blocks := chained.length_chain
  rw [segmentCapacity_eq] at blocks
  rw [List.length_map] at heavy
  omega

/-- Steps of operations keep a heap regular as long as it is sound. -/
theorem Regular.steps {m m' : Machine} (regular : m.heap.Regular) (steps : Machine.Steps Machine.NoCalls false false m m')
    (sound : m'.heap.Sound none) : m'.heap.Regular := by
  obtain ⟨balanced, config⟩ := steps.balanced regular.balanced
  exact ⟨sound, balanced, config ▸ regular.word⟩

end Heap

theorem Machine.create_balanced {config : HeapConfig} {m : Machine} (made : Machine.create config = (.ok (), m)) :
    m.heap.Balanced ∧ m.heap.config = config := by
  obtain ⟨constants, m', ran, heap⟩ := Machine.create_made made
  have takes : Takes Machine.NoCalls false false (guarded makeConstants) := takes_makeConstants.guarded
  obtain ⟨balanced, same⟩ := (takes { heap := Heap.blank config }).balanced (Balanced.blank config)
  rw [ran] at balanced same
  rw [heap]
  exact ⟨balanced.congr rfl rfl rfl, same⟩

/-- A new heap is regular. -/
theorem Machine.create_regular {config : HeapConfig} {m : Machine} (made : Machine.create config = (.ok (), m))
    (word : config.arenaBytes < 1 <<< 64) : m.heap.Regular := by
  obtain ⟨balanced, same⟩ := Machine.create_balanced made
  exact ⟨(Machine.create_sound made).1, balanced, same ▸ word⟩

namespace Client

variable {call : Interpreter} {s : Client} {c : Call} {cs : List Call}

/-- Calls that run no `__init__` keep a heap regular. -/
theorem regular_after (regular : s.machine.heap.Regular) (plain : c.instantiates = false)
    (sound : (s.after call c).machine.heap.Sound none) : (s.after call c).machine.heap.Regular := by
  cases others : c.onRoots with
  | false =>
    have takes : Takes Machine.NoCalls false false (c.run call) :=
      Call.takes (fun instantiates => by rw [plain] at instantiates; cases instantiates) others
    exact regular.steps (takes s.machine) sound
  | true =>
    refine ⟨sound, ?_, ?_⟩
    · cases c with
      | setGlobals | pushRoot | popRoot | truncateRoots => exact regular.balanced.congr rfl rfl rfl
      | _ => cases others
    · cases c with
      | setGlobals | pushRoot | popRoot | truncateRoots => exact regular.word
      | _ => cases others

/-- So do any number of them, one after another. -/
theorem regular_of_admitted (sane : s.Sane) (regular : s.machine.heap.Regular) (admitted : admitsAll call s cs) :
    (cs.foldl (after call) s).machine.heap.Regular := by
  refine of_passes (P := fun cs s => s.Sane → s.machine.heap.Regular → (cs.foldl (after call) s).machine.heap.Regular)
    ?_ ?_ admitted sane regular
  · exact fun _ _ regular => regular
  · intro c rest s admitted others sane regular
    rw [Bool.and_eq_true, Bool.not_eq_true'] at admitted
    obtain ⟨first, plain⟩ := admitted
    have quiet : ∀ init m, c.Enters s.machine init m → Settled m.heap ((call init []).run m).2.heap :=
      fun _ _ enters => absurd enters (Call.not_enters plain)
    have sane' := ((permits_of_admits first).settles sane quiet).2
    exact others sane' (regular_after regular plain sane'.sound)

/-- The machine that calls on a new heap lead to. -/
def ended (config : HeapConfig) (calls : List Call) : Machine :=
  (calls.foldl (after tidying) { machine := (Machine.create config).2 }).machine

/-- Whether there is such a heap, with a budget that a word can count, and the calls are admitted on it. -/
def opens (config : HeapConfig) (calls : List Call) : Bool :=
  decide ((Machine.create config).1 = .ok () ∧ config.arenaBytes < 1 <<< 64) &&
    admitsAll tidying { machine := (Machine.create config).2 } calls

theorem regular_ended {config : HeapConfig} {calls : List Call} (opened : opens config calls = true) :
    (ended config calls).heap.Regular := by
  rw [opens, Bool.and_eq_true, decide_eq_true_eq] at opened
  obtain ⟨⟨made, word⟩, admitted⟩ := opened
  have created : Machine.create config = (.ok (), (Machine.create config).2) := Prod.ext made rfl
  exact regular_of_admitted (sane_new created) (Machine.create_regular created word) admitted

end Client

namespace ListCall

theorem takes_onHeap (call : ListCall) (l : Handle) {foreign : Machine → Machine → Prop} {building : Bool} :
    Takes foreign false building (call.onHeap l) := by
  cases call with
  | get index => exact (ListObject.takes_get l index).map _
  | set index x => exact (ListObject.takes_set l index x).bind fun _ => takes_pure _
  | removeAt index => exact (ListObject.takes_removeAt l index).bind fun _ => takes_pure _
  | insert index x => exact (ListObject.takes_insert l index x).bind fun _ => takes_pure _
  | append x => exact (ListObject.takes_append l x).bind fun _ => takes_pure _
  | clear => exact (ListObject.takes_clear l).bind fun _ => takes_pure _
  | indexOf value => exact (ListObject.takes_indexOf l value).map _
  | remove value => exact (ListObject.takes_remove l value).bind fun _ => takes_pure _

variable {call : ListCall} {m : Machine} {l s x : Handle} {xs : List Handle}

/-- What one call comes to. -/
structure Refines (call : ListCall) (l s : Handle) (xs ys : List Handle) (m : Machine) : Prop where
  outcome : call.Outcome xs m ys ((call.onHeap l).run m)
  items : ((call.onHeap l).run m).2.heap.HasItems l s ys
  altered : Altered (Own l s) m.heap ((call.onHeap l).run m).2.heap

/-- An update that cannot fail. -/
theorem Refines.of_update {op : HeapM Unit} {ys : List Handle} {m' : Machine} (ran : op.run m = (.ok (), m'))
    (same : call.onHeap l = do op; return .done) (effect : call.onList m.heap.sameAs xs = .ok (ys, .done))
    (altered : Altered (Own l s) m.heap m'.heap) (items : m'.heap.HasItems l s ys) : call.Refines l s xs ys m := by
  have outcome : (call.onHeap l).run m = (.ok .done, m') := by
    rw [same, run_bind_ok ran]
    rfl
  constructor
  · rw [outcome]
    exact .done effect
  · rw [outcome]
    exact items
  · rw [outcome]
    exact altered

/-- An update that may need a chunk. -/
theorem Refines.of_effect {op : HeapM Unit} {ys : List Handle} (has : m.heap.HasItems l s xs) (rooted : m.heap.Rooted l)
    (same : call.onHeap l = do op; return .done) (grows : call.grows = true)
    (effect : call.onList m.heap.sameAs xs = .ok (ys, .done))
    (ends : Effect (Own l s) m.heap (Brimming xs.length) (fun g => g.HasItems l s ys) (op.run m)) : ∃ zs, call.Refines l s xs zs m := by
  generalize ran : op.run m = result at ends
  cases ends with
  | @noRoom e m' memory altered full =>
    have outcome : (call.onHeap l).run m = (.error e, m') := by rw [same, run_bind_error ran]
    refine ⟨xs, ?_, ?_, ?_⟩
    · rw [outcome]
      exact .noRoom grows memory full
    · rw [outcome]
      exact has.altered altered rooted not_false not_false
    · rw [outcome]
      exact altered.mono fun _ none => none.elim
  | @done m' altered items => exact ⟨ys, .of_update ran same effect altered items⟩

/-- A call that changes at most cursors. -/
theorem Refines.of_reading {result : Except Error ListAnswer} {m' : Machine} (sound : m.heap.Sound none)
    (has : m.heap.HasItems l s xs) (ran : (call.onHeap l).run m = (result, m'))
    (outcome : call.Outcome xs m xs (result, m')) (glanced : Glanced m.heap m'.heap) : call.Refines l s xs xs m := by
  constructor
  · rw [ran]
    exact outcome
  · rw [ran]
    exact has.glanced glanced sound
  · rw [ran]
    exact glanced.altered sound _

/-- An index that names no element. -/
theorem Refines.of_range (sound : m.heap.Sound none) (has : m.heap.HasItems l s xs)
    (ran : (call.onHeap l).run m = (.error .listRange, m)) (effect : call.onList m.heap.sameAs xs = .error .listRange) :
    call.Refines l s xs xs m :=
  .of_reading sound has ran (.outOfRange effect) (Glanced.refl _)

/-- Reading the element at a position moves the cursor at most. -/
theorem refines_get (index : Int) (regular : m.heap.Regular) (has : m.heap.HasItems l s xs) :
    (get index).Refines l s xs xs m := by
  have sound := regular.sound
  have named := Position.element?_eq index (regular.short has.storage)
  obtain ⟨m', ran, glanced, unmoved⟩ := ListObject.run_get sound has index
  rw [named] at ran unmoved
  cases there : Position.place index xs.length with
  | none =>
    obtain rfl := unmoved there
    rw [there, Option.bind_none, Option.elim_none] at ran
    refine .of_range sound has ?_ ?_
    · rw [onHeap, map_eq_pure_bind, run_bind_error ran]
    · rw [onList, there]
      rfl
  | some n =>
    have inside : n < xs.length := Position.element?_lt (named.trans there)
    rw [there, Option.bind_some, List.getElem?_eq_getElem inside, Option.elim_some] at ran
    have whole : ((get index).onHeap l).run m = (.ok (.element xs[n]), m') := by
      rw [onHeap, map_eq_pure_bind, run_bind_ok ran]
      rfl
    refine .of_reading sound has whole (.done ?_) glanced
    rw [onList, there, Option.bind_some, List.getElem?_eq_getElem inside]

/-- A search answers with the first position of the value, or fails as the
comparison does. -/
theorem refines_indexOf {value : Handle} (sound : m.heap.Sound none) (has : m.heap.HasItems l s xs)
    (live : m.heap.Element value) : (indexOf value).Refines l s xs xs m := by
  obtain ⟨m', ran, glanced⟩ := ListObject.run_indexOf sound has live
  have whole : ((indexOf value).onHeap l).run m =
      ((search (m.heap.sameAs value) xs).bind fun found => found.elim (.error .notInList) fun n => .ok (.position n), m') := by
    rw [onHeap, map_eq_pure_bind, run_bind, ran]
    cases search (m.heap.sameAs value) xs with
    | error e => rfl
    | ok found => cases found <;> rfl
  refine .of_reading sound has whole ?_ glanced
  cases searched : search (m.heap.sameAs value) xs with
  | error e => exact .notFound rfl (by rw [onList, searched]; rfl)
  | ok found =>
    cases found with
    | none => exact .notFound rfl (by rw [onList, searched]; rfl)
    | some n => exact .done (by rw [onList, searched]; rfl)

/-- Removing a value is a search and then a removal at the position found. -/
theorem exists_refines_remove {value : Handle} (sound : m.heap.Sound none) (has : m.heap.HasItems l s xs)
    (live : m.heap.Element value) : ∃ ys, (remove value).Refines l s xs ys m := by
  obtain ⟨m', ran, glanced⟩ := ListObject.run_indexOf sound has live
  have in_vain : ∀ e, (ListObject.indexOf l value).run m = (.error e, m') →
      (remove value).onList m.heap.sameAs xs = .error e → (remove value).Refines l s xs xs m := by
    intro e failed effect
    have whole : ((remove value).onHeap l).run m = (.error e, m') := by
      rw [onHeap, ListObject.remove, bind_assoc, run_bind_error failed]
    exact .of_reading sound has whole (.notFound rfl effect) glanced
  cases searched : search (m.heap.sameAs value) xs with
  | error e =>
    rw [searched] at ran
    exact ⟨xs, in_vain e ran (by rw [onList, searched]; rfl)⟩
  | ok found =>
    rw [searched] at ran
    cases found with
    | none => exact ⟨xs, in_vain .notInList ran (by rw [onList, searched]; rfl)⟩
    | some n =>
      have inside := Position.element?_natCast (lt_length_of_search searched)
      obtain ⟨m'', removed, altered, items⟩ :=
        ListObject.removeAt_effect (glanced.sound none sound) (has.glanced glanced sound) inside
      have whole : (ListObject.remove l value).run m = (.ok (), m'') := by
        rw [ListObject.remove, run_bind_ok ran]
        exact removed
      exact ⟨_, .of_update whole rfl (by rw [onList, searched]; rfl) (altered.after glanced sound) items⟩

/-- **One call.** -/
theorem exists_refines (call : ListCall) (regular : m.heap.Regular) (rooted : m.heap.Rooted l)
    (has : m.heap.HasItems l s xs) (live : ∀ x ∈ call.operands, m.heap.Element x) : ∃ ys, call.Refines l s xs ys m := by
  have sound := regular.sound
  have short := regular.short has.storage
  have record := ListObject.run_record has
  have named : ∀ index, Position.element? index xs.length = Position.place index xs.length :=
    fun index => Position.element?_eq index short
  cases call with
  | get index => exact ⟨xs, refines_get index regular has⟩
  | set index x =>
    cases there : Position.place index xs.length with
    | none =>
      refine ⟨xs, .of_range sound has ?_ ?_⟩
      · rw [onHeap, ListObject.set, bind_assoc, run_bind_ok record, bind_assoc,
          run_bind_error (ListObject.run_position_error (r := ⟨xs.length, s⟩) ((named index).trans there))]
      · rw [onList, there]
    | some n =>
      obtain ⟨m', ran, altered, items⟩ :=
        ListObject.set_effect sound has (live x (by simp [operands])) ((named index).trans there)
      exact ⟨_, .of_update ran rfl (by rw [onList, there]) altered items⟩
  | removeAt index =>
    cases there : Position.place index xs.length with
    | none =>
      refine ⟨xs, .of_range sound has ?_ ?_⟩
      · rw [onHeap, ListObject.removeAt, bind_assoc, run_bind_ok record, bind_assoc,
          run_bind_error (ListObject.run_position_error (r := ⟨xs.length, s⟩) ((named index).trans there))]
      · rw [onList, there]
    | some n =>
      obtain ⟨m', ran, altered, items⟩ := ListObject.removeAt_effect sound has ((named index).trans there)
      exact ⟨_, .of_update ran rfl (by rw [onList, there]) altered items⟩
  | insert index x =>
    have ends := ListObject.insert_effect sound has rooted (live x (by simp [operands])) index
    rw [Position.clamp_eq index short] at ends
    exact Refines.of_effect has rooted rfl rfl rfl ends
  | append x =>
    exact Refines.of_effect has rooted rfl rfl rfl
      (ListObject.append_effect sound has rooted (live x (by simp [operands])))
  | clear =>
    obtain ⟨m', ran, altered, items⟩ := ListObject.clear_effect sound has
    exact ⟨[], .of_update ran rfl rfl altered items⟩
  | indexOf value => exact ⟨xs, refines_indexOf sound has (live value (by simp [operands]))⟩
  | remove value => exact exists_refines_remove sound has (live value (by simp [operands]))

/-- A position counted from the end is the same position. -/
theorem run_reindexed {i : Nat} (regular : m.heap.Regular) (has : m.heap.HasItems l s xs) (inside : i < xs.length)
    (indexed : call.index? = some i) :
    ((call.reindexed ((i : Int) - xs.length)).onHeap l).run m = (call.onHeap l).run m := by
  have same := Position.normalize_sub_length (regular.short has.storage) inside
  have record := ListObject.run_record has
  have position : ListObject.position ⟨xs.length, s⟩ ((i : Int) - xs.length) = ListObject.position ⟨xs.length, s⟩ i := by
    simp only [ListObject.position, Position.element?, same]
  cases call with
  | get index =>
    cases indexed
    simp only [reindexed, onHeap, ListObject.get, map_eq_pure_bind, bind_assoc, run_bind_ok record, position]
  | set index x =>
    cases indexed
    simp only [reindexed, onHeap, ListObject.set, bind_assoc, run_bind_ok record, position]
  | removeAt index =>
    cases indexed
    simp only [reindexed, onHeap, ListObject.removeAt, bind_assoc, run_bind_ok record, position]
  | insert index x =>
    cases indexed
    simp only [reindexed, onHeap, ListObject.insert, bind_assoc, run_bind_ok record, Position.clamp, same]
  | append | clear | indexOf | remove => cases indexed

/-! ### Any number of calls -/

/-- The calls can be made one after the other: when its turn comes, each is about a
list that the roots lead to, with live operands; and the roots lead to `l`. -/
def Ready (l : Handle) : List (Handle × ListCall) → Machine → Prop
  | [], _ => True
  | (target, call) :: rest, m =>
    m.heap.Rooted l ∧ m.heap.Rooted target ∧ (∃ ys, m.heap.listItems target = .ok ys) ∧
      (∀ x ∈ call.operands, m.heap.Element x) ∧ Ready l rest ((call.onHeap target).run m).2

/-- One call on the list `l`, which has the elements `xs` before and `ys` after. -/
structure Behaves (call : ListCall) (l : Handle) (xs ys : List Handle) (m : Machine) : Prop where
  outcome : call.Outcome xs m ys ((call.onHeap l).run m)
  /-- An index that counts from the end does just what the one from the front does. -/
  fromEnd : ∀ i : Nat, i < xs.length → call.index? = some i →
    ((call.reindexed ((i : Int) - xs.length)).onHeap l).run m = (call.onHeap l).run m
  /-- Nothing else that the roots lead to has changed. -/
  others : ∀ x, m.heap.Rooted x → x ≠ l → (∀ r, m.heap.find? l = some (.list r) → x ≠ r.storage) →
    ((call.onHeap l).run m).2.heap.content? x = m.heap.content? x

/-- Through the calls the list `l` behaves like a sequence that starts with `xs`,
and its length is always on record. -/
def Follows (l : Handle) : List (Handle × ListCall) → List Handle → Machine → Prop
  | [], xs, m => m.heap.listItems l = .ok xs ∧ m.heap.listLength l = .ok xs.length
  | (target, call) :: rest, xs, m =>
    m.heap.listItems l = .ok xs ∧ m.heap.listLength l = .ok xs.length ∧
      ∃ ys, (target = l → call.Behaves l xs ys m) ∧ (target ≠ l → ys = xs) ∧
        Follows l rest ys ((call.onHeap target).run m).2

/-- A list of a heap in order behaves like the sequence of its elements, whatever is
called on it and on other lists. -/
theorem calls_follow_sequence (calls : List (Handle × ListCall)) (regular : m.heap.Regular)
    (contents : m.heap.listItems l = .ok xs) (ready : Ready l calls m) : Follows l calls xs m := by
  induction calls generalizing m xs with
  | nil =>
    obtain ⟨s, has⟩ := regular.sound.hasItems_of_listItems contents
    exact ⟨has.listItems, has.listLength⟩
  | cons step rest ih =>
    obtain ⟨target, call⟩ := step
    obtain ⟨rooted, reached, ⟨zs, there⟩, live, later⟩ := ready
    obtain ⟨s, has⟩ := regular.sound.hasItems_of_listItems contents
    obtain ⟨u, subject⟩ := regular.sound.hasItems_of_listItems there
    obtain ⟨ys, refines⟩ := call.exists_refines regular reached subject live
    have regular' := regular.steps (call.takes_onHeap target m) refines.altered.sound
    refine ⟨has.listItems, has.listLength, ?_⟩
    by_cases same : target = l
    · subst same
      have items := subject.listItems
      rw [has.listItems] at items
      cases items
      refine ⟨ys, fun _ => ⟨refines.outcome, ?_, ?_⟩, absurd rfl, ih regular' refines.items.listItems later⟩
      · exact fun i inside indexed => run_reindexed regular has inside indexed
      · intro x rooted' list storage
        refine refines.altered.kept x ?_ rooted'
        rintro (rfl | rfl)
        · exact list rfl
        · exact storage _ subject.find? rfl
    · have items := has.other subject refines.altered regular.sound rooted same
      exact ⟨xs, fun target => absurd target same, fun _ => rfl, ih regular' items.listItems later⟩

/-! ### A full list -/

/-- Whether a call can be made, with roots for the lists. -/
def checks (l : Handle) (step : Handle × ListCall) (m : Machine) : Bool :=
  m.heap.serves [l, step.1] step.2.operands && decide (∃ ys, m.heap.listItems step.1 = .ok ys)

theorem ready_of_checks {calls : List (Handle × ListCall)}
    (checked : passes (fun step m => ((step.2.onHeap step.1).run m).2) (checks l) calls m = true) : Ready l calls m := by
  refine of_passes (P := Ready l) (fun _ => trivial) ?_ checked
  rintro ⟨target, call⟩ rest m checked later
  rw [checks, Bool.and_eq_true, decide_eq_true_eq] at checked
  obtain ⟨rooted, live⟩ := serves_spec checked.1
  exact ⟨rooted l (by simp), rooted target (by simp), checked.2, live, later⟩

/-- A heap for a list of eight elements. -/
def snug : HeapConfig := { arenaBytes := 68, maxChunkBytes := 32 }

/-- Make the list and fill it. -/
def stocking : List Call :=
  [.create .list, .pushRoot ⟨5⟩] ++
    [⟨0⟩, ⟨1⟩, ⟨2⟩, ⟨3⟩, ⟨1⟩, ⟨2⟩, ⟨3⟩, ⟨0⟩].map fun x => .update (.listAppend ⟨5⟩ x)

abbrev stocked : Machine :=
  Client.ended snug stocking

theorem stocked_regular : stocked.heap.Regular := by
  apply Client.regular_ended
  decide +kernel

/-- Calls on the full list: without room, out of range, clamped, in vain, and the list into itself. -/
abbrev errands : List (Handle × ListCall) :=
  [.insert (-1) ⟨3⟩, .get (-9), .removeAt (-8), .insert (-100) ⟨3⟩, .indexOf ⟨2⟩, .remove ⟨0⟩, .set (-1) ⟨5⟩, .indexOf ⟨0⟩,
    .clear].map fun call => (⟨5⟩, call)

theorem calls_follow_sequence_stocked :
    stocked.heap.Regular ∧ stocked.heap.listItems ⟨5⟩ = .ok [⟨0⟩, ⟨1⟩, ⟨2⟩, ⟨3⟩, ⟨1⟩, ⟨2⟩, ⟨3⟩, ⟨0⟩] ∧
      Ready ⟨5⟩ errands stocked ∧ Follows ⟨5⟩ errands [⟨0⟩, ⟨1⟩, ⟨2⟩, ⟨3⟩, ⟨1⟩, ⟨2⟩, ⟨3⟩, ⟨0⟩] stocked := by
  have contents : stocked.heap.listItems ⟨5⟩ = .ok [⟨0⟩, ⟨1⟩, ⟨2⟩, ⟨3⟩, ⟨1⟩, ⟨2⟩, ⟨3⟩, ⟨0⟩] := by decide +kernel
  have ready : Ready ⟨5⟩ errands stocked := ready_of_checks (by decide +kernel)
  exact ⟨stocked_regular, contents, ready, calls_follow_sequence errands stocked_regular contents ready⟩

end ListCall

end ChunkHeap

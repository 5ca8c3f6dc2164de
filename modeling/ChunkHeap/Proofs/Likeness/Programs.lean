import ChunkHeap.Proofs.Likeness.Tables
import Mathlib.Data.List.ReduceOption

/-!
# Operations of a program

What a program can ask of a heap: readings, actions on lists, tables, tuples, strings,
integers and slices, and changes of the roots, each with its whole answer. The operands
may be anything, so that an operation can be written down before its objects exist.
Two heaps that mirror each other answer alike to the same operation on partners
(`Pairing.agree_operation`).
-/

namespace ChunkHeap
set_option autoImplicit false

open HeapM Heap

/-! ### Answers -/

/-- What an operation answers. -/
inductive Answer where
  | nothing
  | count (n : Nat)
  | number (v : Int32)
  | flag (b : Bool)
  | text (s : String)
  | printed (outcome : Except Error Unit) (bytes : Array UInt8)
  | compared (c : Comparison)
  | indices (bounds : Int × Int × Int)
  | objects (xs : List (Option Handle))

namespace Answer

def one (x : Handle) : Answer :=
  objects [some x]

/-- The objects in an answer. -/
def handles : Answer → List Handle
  | objects xs => xs.reduceOption
  | _ => []

/-- The answer with every handle replaced. -/
def map (f : Handle → Handle) : Answer → Answer
  | objects xs => objects (xs.map (Option.map f))
  | a => a

theorem handles_map (f : Handle → Handle) (a : Answer) : (a.map f).handles = a.handles.map f := by
  cases a with
  | objects xs => simp [map, handles, List.reduceOption_map]
  | _ => rfl

/-- Only the objects in an answer matter. -/
theorem map_congr {f f' : Handle → Handle} {a : Answer} (same : ∀ x ∈ a.handles, f x = f' x) : a.map f = a.map f' := by
  cases a with
  | objects xs =>
    refine congrArg objects (List.map_congr_left fun bound member => Option.map_congr fun x here => same x ?_)
    exact List.reduceOption_mem_iff.2 (here ▸ member)
  | _ => rfl

end Answer

/-! ### Operations -/

/-- Readings that leave the heap as it is. -/
inductive Reading (ι : Type) where
  | listLength (list : ι)
  | listItems (list : ι)
  | dictLength (dict : ι)
  | dictKeys (dict : ι)
  | dictVals (dict : ι)
  | tupleLength (tuple : ι)
  | tupleItems (tuple : ι)
  | tupleElement (tuple : ι) (index : Int)
  | strText (x : ι)
  | strEquals (x : ι) (text : String)
  | intValue (x : ι)
  | sliceBounds (slice : ι)
  | sliceIndices (slice : ι) (length : Nat)
  | compare (x y : ι)
  | render (x : ι)
  | print (tag : Option Tag) (x : ι)

/-- Operations on lists and tables, and those that make objects. -/
inductive Action (ι : Type) where
  | list
  | listAppend (list x : ι)
  | listGet (list : ι) (index : Int)
  | listSet (list : ι) (index : Int) (x : ι)
  | listInsert (list : ι) (index : Int) (x : ι)
  | listRemoveAt (list : ι) (index : Int)
  | listIndexOf (list value : ι)
  | listRemove (list value : ι)
  | listReplicate (list : ι) (count : Int)
  | listCopy (list : ι)
  | listClear (list : ι)
  | listSlice (list : ι) (start stop step : Int)
  | listSliceBy (list slice : ι)
  | listStoreSlice (list : ι) (start stop : Int) (source : ι)
  | dict
  | dictSet (dict key value : ι)
  | dictLookup (dict key : ι)
  | dictLookupText (dict : ι) (text : String)
  | dictGet (dict key : ι)
  | dictErase (dict key : ι)
  | dictClear (dict : ι)
  | dictEntry (dict : ι) (index : Nat)
  | tuple (items : List ι)
  | str (text : String)
  | int (value : Int32)
  | slice (start stop step : Option ι)

/-- Operations on the roots. -/
inductive RootCall (ι : Type) where
  | setGlobals (globals : Option ι)
  | globals
  | pushRoot (x : ι)
  | popRoot
  | rootDepth
  | truncateRoots (depth : Nat)

inductive Operation (ι : Type) where
  | read (r : Reading ι)
  | act (a : Action ι)
  | root (r : RootCall ι)

variable {ι κ μ : Type}

namespace Reading

def operands : Reading ι → List ι
  | listLength x | listItems x | dictLength x | dictKeys x | dictVals x | tupleLength x | tupleItems x | tupleElement x _
  | strText x | strEquals x _ | intValue x | sliceBounds x | sliceIndices x _ | render x | print _ x => [x]
  | compare x y => [x, y]

def map (f : ι → κ) : Reading ι → Reading κ
  | listLength x => listLength (f x)
  | listItems x => listItems (f x)
  | dictLength x => dictLength (f x)
  | dictKeys x => dictKeys (f x)
  | dictVals x => dictVals (f x)
  | tupleLength x => tupleLength (f x)
  | tupleItems x => tupleItems (f x)
  | tupleElement x index => tupleElement (f x) index
  | strText x => strText (f x)
  | strEquals x text => strEquals (f x) text
  | intValue x => intValue (f x)
  | sliceBounds x => sliceBounds (f x)
  | sliceIndices x length => sliceIndices (f x) length
  | compare x y => compare (f x) (f y)
  | render x => render (f x)
  | print tag x => print tag (f x)

/-- The output of printing, with what was written before an error. -/
def output (h : Heap) (tag : Option Tag) (x : Handle) : Answer :=
  let written := (match tag with
    | none => h.print .buffer x
    | some tag => h.printTagged tag .buffer x).run #[]
  .printed written.1 written.2

def read (h : Heap) : Reading Handle → Except Error Answer
  | listLength x => (h.listLength x).map .count
  | listItems x => (h.listItems x).map fun xs => .objects (xs.map some)
  | dictLength x => (h.dictLength x).map .count
  | dictKeys x => (h.dictRecord x).map fun r => .one r.keys
  | dictVals x => (h.dictRecord x).map fun r => .one r.vals
  | tupleLength x => (h.tupleLength x).map .count
  | tupleItems x => (h.tupleItems x).map fun xs => .objects (xs.map some)
  | tupleElement x index => (h.tupleElement x index).map .one
  | strText x => (h.strText x).map .text
  | strEquals x text => (h.strEquals x text).map .flag
  | intValue x => (h.intValue x).map .number
  | sliceBounds x => (h.sliceRecord x).map fun r => .objects [r.start, r.stop, r.step]
  | sliceIndices x length => (h.sliceIndices x length).map .indices
  | compare x y => (h.compare x y).map .compared
  | render x => (h.render x).map .text
  | print tag x => .ok (output h tag x)

end Reading

namespace Action

def operands : Action ι → List ι
  | list | dict | str _ | int _ => []
  | listGet x _ | listRemoveAt x _ | listReplicate x _ | listCopy x | listClear x | listSlice x _ _ _ | dictLookupText x _
  | dictClear x | dictEntry x _ => [x]
  | listAppend x y | listSet x _ y | listInsert x _ y | listIndexOf x y | listRemove x y | listSliceBy x y
  | listStoreSlice x _ _ y | dictLookup x y | dictGet x y | dictErase x y => [x, y]
  | dictSet x y z => [x, y, z]
  | tuple items => items
  | slice start stop step => start.toList ++ stop.toList ++ step.toList

def map (f : ι → κ) : Action ι → Action κ
  | list => list
  | listAppend l x => listAppend (f l) (f x)
  | listGet l index => listGet (f l) index
  | listSet l index x => listSet (f l) index (f x)
  | listInsert l index x => listInsert (f l) index (f x)
  | listRemoveAt l index => listRemoveAt (f l) index
  | listIndexOf l value => listIndexOf (f l) (f value)
  | listRemove l value => listRemove (f l) (f value)
  | listReplicate l count => listReplicate (f l) count
  | listCopy l => listCopy (f l)
  | listClear l => listClear (f l)
  | listSlice l start stop step => listSlice (f l) start stop step
  | listSliceBy l bounds => listSliceBy (f l) (f bounds)
  | listStoreSlice l start stop source => listStoreSlice (f l) start stop (f source)
  | dict => dict
  | dictSet d key value => dictSet (f d) (f key) (f value)
  | dictLookup d key => dictLookup (f d) (f key)
  | dictLookupText d text => dictLookupText (f d) text
  | dictGet d key => dictGet (f d) (f key)
  | dictErase d key => dictErase (f d) (f key)
  | dictClear d => dictClear (f d)
  | dictEntry d index => dictEntry (f d) index
  | tuple items => tuple (items.map f)
  | str text => str text
  | int value => int value
  | slice start stop step => slice (start.map f) (stop.map f) (step.map f)

def run : Action Handle → HeapM Answer
  | list => .one <$> ListObject.new
  | listAppend l x => (fun _ => .nothing) <$> ListObject.append l x
  | listGet l index => .one <$> ListObject.get l index
  | listSet l index x => (fun _ => .nothing) <$> ListObject.set l index x
  | listInsert l index x => (fun _ => .nothing) <$> ListObject.insert l index x
  | listRemoveAt l index => (fun _ => .nothing) <$> ListObject.removeAt l index
  | listIndexOf l value => .count <$> ListObject.indexOf l value
  | listRemove l value => (fun _ => .nothing) <$> ListObject.remove l value
  | listReplicate l count => .one <$> ListObject.replicate l count
  | listCopy l => .one <$> ListObject.copy l
  | listClear l => (fun _ => .nothing) <$> ListObject.clear l
  | listSlice l start stop step => .one <$> ListObject.slice l start stop step
  | listSliceBy l bounds => .one <$> ListObject.sliceBy l bounds
  | listStoreSlice l start stop source => (fun _ => .nothing) <$> ListObject.storeSlice l start stop source
  | dict => .one <$> DictObject.new
  | dictSet d key value => (fun _ => .nothing) <$> DictObject.set d key value
  | dictLookup d key => (fun found => .objects [found]) <$> DictObject.lookup d key
  | dictLookupText d text => (fun found => .objects [found]) <$> DictObject.lookupText d text
  | dictGet d key => .one <$> DictObject.get d key
  | dictErase d key => (fun _ => .nothing) <$> DictObject.erase d key
  | dictClear d => (fun _ => .nothing) <$> DictObject.clear d
  | dictEntry d index => (fun e => .objects [some e.1, some e.2]) <$> DictObject.entry d index
  | tuple items => .one <$> TupleObject.new items
  | str text => .one <$> StrObject.new text
  | int value => .one <$> IntObject.new value
  | slice start stop step => .one <$> SliceObject.new start stop step

/-- An action takes the steps of an operation on a heap. -/
theorem takes (a : Action Handle) : Takes Machine.NoCalls false false a.run := by
  cases a with
  | list => exact ListObject.takes_new.map _
  | listAppend l x => exact (ListObject.takes_append l x).map _
  | listGet l index => exact (ListObject.takes_get l index).map _
  | listSet l index x => exact (ListObject.takes_set l index x).map _
  | listInsert l index x => exact (ListObject.takes_insert l index x).map _
  | listRemoveAt l index => exact (ListObject.takes_removeAt l index).map _
  | listIndexOf l value => exact (ListObject.takes_indexOf l value).map _
  | listRemove l value => exact (ListObject.takes_remove l value).map _
  | listReplicate l count => exact (ListObject.takes_replicate l count).map _
  | listCopy l => exact (ListObject.takes_replicate l 1).map _
  | listClear l => exact (ListObject.takes_clear l).map _
  | listSlice l start stop step => exact (ListObject.takes_slice l start stop step).map _
  | listSliceBy l bounds => exact (ListObject.takes_sliceBy l bounds).map _
  | listStoreSlice l start stop source => exact (ListObject.takes_storeSlice l start stop source).map _
  | dict => exact DictObject.takes_new.map _
  | dictSet d key value => exact (DictObject.takes_set d key value).map _
  | dictLookup d key => exact (DictObject.takes_lookup d key).map _
  | dictLookupText d text => exact (DictObject.takes_lookupText d text).map _
  | dictGet d key => exact (DictObject.takes_get d key).map _
  | dictErase d key => exact (DictObject.takes_erase d key).map _
  | dictClear d => exact (DictObject.takes_clear d).map _
  | dictEntry d index => exact (DictObject.takes_entry d index).map _
  | tuple items => exact (takes_allocate _ fun never => by cases never).map _
  | str text => exact (takes_allocate _ fun _ => rfl).map _
  | int value => exact (IntObject.takes_new value).map _
  | slice start stop step => exact (SliceObject.takes_new start stop step).map _

end Action

namespace RootCall

def operands : RootCall ι → List ι
  | setGlobals root => root.toList
  | pushRoot x => [x]
  | globals | popRoot | rootDepth | truncateRoots _ => []

/-- Whether the call may make an object a root. -/
def adopts : RootCall ι → Bool
  | setGlobals _ | pushRoot _ => true
  | globals | popRoot | rootDepth | truncateRoots _ => false

def map (f : ι → κ) : RootCall ι → RootCall κ
  | setGlobals root => setGlobals (root.map f)
  | globals => globals
  | pushRoot x => pushRoot (f x)
  | popRoot => popRoot
  | rootDepth => rootDepth
  | truncateRoots depth => truncateRoots depth

def run : RootCall Handle → HeapM Answer
  | setGlobals root => (fun _ => .nothing) <$> HeapM.setGlobals root
  | globals => (fun h => .objects [h.roots.globals]) <$> heap
  | pushRoot x => (fun _ => .nothing) <$> HeapM.pushRoot x
  | popRoot => (fun popped => .objects [popped]) <$> HeapM.popRoot
  | rootDepth => (fun h => .count h.roots.stack.length) <$> heap
  | truncateRoots depth => (fun _ => .nothing) <$> HeapM.truncateRoots depth

end RootCall

namespace Operation

def operands : Operation ι → List ι
  | read r => r.operands
  | act a => a.operands
  | root r => r.operands

/-- Whether the operation may make an object a root. -/
def adopts : Operation ι → Bool
  | root r => r.adopts
  | read _ | act _ => false

def map (f : ι → κ) : Operation ι → Operation κ
  | read r => read (r.map f)
  | act a => act (a.map f)
  | root r => root (r.map f)

def run : Operation Handle → HeapM Answer
  | read r => inspect r.read
  | act a => a.run
  | root r => r.run

theorem operands_map (f : ι → κ) (op : Operation ι) : (op.map f).operands = op.operands.map f := by
  cases op with
  | read r => cases r <;> rfl
  | act a =>
    cases a with
    | slice start stop step => cases start <;> cases stop <;> cases step <;> rfl
    | _ => rfl
  | root r =>
    cases r with
    | setGlobals globals => cases globals <;> rfl
    | _ => rfl

theorem adopts_map (f : ι → κ) (op : Operation ι) : (op.map f).adopts = op.adopts := by
  cases op with
  | root r => cases r <;> rfl
  | _ => rfl

/-- Only the operands matter. -/
theorem map_eq_map_map {f : ι → κ} {g : κ → μ} {k : ι → μ} (op : Operation ι) (same : ∀ i ∈ op.operands, k i = g (f i)) :
    op.map k = (op.map f).map g := by
  have optional : ∀ bound : Option ι, (∀ i ∈ bound, k i = g (f i)) → bound.map k = (bound.map f).map g := by
    intro bound each
    rw [Option.map_map]
    exact Option.map_congr each
  cases op with
  | read r => cases r <;> simp_all [operands, map, Reading.operands, Reading.map]
  | act a =>
    cases a with
    | slice start stop step =>
      have first := optional start fun i bound => same i (by simp_all [operands, Action.operands])
      have second := optional stop fun i bound => same i (by simp_all [operands, Action.operands])
      have third := optional step fun i bound => same i (by simp_all [operands, Action.operands])
      simp only [map, Action.map, first, second, third]
    | tuple items =>
      have each : items.map k = (items.map f).map g := by
        rw [List.map_map]
        exact List.map_congr_left same
      simp only [map, Action.map, each]
    | _ => simp_all [operands, map, Action.operands, Action.map]
  | root r =>
    cases r with
    | setGlobals globals =>
      have each := optional globals fun i bound => same i (Option.mem_toList.2 bound)
      simp only [map, RootCall.map, each]
    | _ => simp_all [operands, map, RootCall.operands, RootCall.map]

/-- What an operation keeps: the record, the balance, and the kinds of the objects that are not new. -/
theorem run_keeps (op : Operation Handle) {m : Machine} (ok : m.heap.Balanced) :
    m.log.toList <+: (op.run.run m).2.log.toList ∧ (op.run.run m).2.heap.Balanced ∧
      ∀ x q, (op.run.run m).2.heap.find? x = some q →
        m.Born (op.run.run m).2 x ∨ ∃ p, m.heap.find? x = some p ∧ p.tag = q.tag := by
  have stays : ∀ x q, m.heap.find? x = some q → m.Born m x ∨ ∃ p, m.heap.find? x = some p ∧ p.tag = q.tag :=
    fun x q found => .inr ⟨q, found, rfl⟩
  cases op with
  | read r => exact ⟨List.prefix_rfl, ok, stays⟩
  | act a =>
    have steps := a.takes m
    exact ⟨steps.reported, (steps.balanced ok).1, fun x q found => steps.tags ok found⟩
  | root r =>
    cases r with
    | setGlobals | pushRoot | popRoot | truncateRoots =>
      exact ⟨List.prefix_rfl, ok.congr rfl rfl rfl, fun x q found => .inr ⟨q, found, rfl⟩⟩
    | globals | rootDepth => exact ⟨List.prefix_rfl, ok, stays⟩

end Operation

/-! ### Agreement -/

theorem Heap.tupleElement_mem {h : Heap} {x y : Handle} {index : Int} (read : h.tupleElement x index = .ok y) :
    ∃ items, h.tupleItems x = .ok items ∧ y ∈ items := by
  obtain ⟨items, tuple, chosen⟩ := except_bind_ok read
  refine ⟨items, tuple, ?_⟩
  split at chosen
  · rename_i item selected
    cases chosen
    obtain ⟨i, -, here⟩ := Option.bind_eq_some_iff.1 selected
    exact List.mem_of_getElem? here
  · cases chosen

namespace Pairing

variable {φ : Pairing} {h g : Heap} {m m' : Machine} {x y : Handle} {α β : Type}

/-- Answers that correspond, with objects that are covered. -/
def Answers (a a' : Answer) (φ : Pairing) (_ _ : Heap) : Prop :=
  (∀ x ∈ a.handles, φ.covers x) ∧ a' = a.map φ.partner

theorem answers_nothing : Answers .nothing .nothing φ h g :=
  ⟨nofun, rfl⟩

theorem answers_one (covered : φ.covers x) (partner : φ.partner x = y) : Answers (.one x) (.one y) φ h g := by
  refine ⟨fun z member => ?_, by rw [← partner]; rfl⟩
  rw [List.mem_singleton.1 member]
  exact covered

theorem answers_option {found : Option Handle} (covered : ∀ x ∈ found, φ.covers x) :
    Answers (.objects [found]) (.objects [found.map φ.partner]) φ h g := by
  refine ⟨fun x member => ?_, rfl⟩
  exact covered x (List.mem_singleton.1 (List.reduceOption_mem_iff.1 member)).symm

theorem answers_items {xs : List Handle} (covered : ∀ x ∈ xs, φ.covers x) :
    Answers (.objects (xs.map some)) (.objects ((xs.map φ.partner).map some)) φ h g := by
  refine ⟨fun x member => ?_, by simp [Answer.map]⟩
  obtain ⟨y, inside, same⟩ := List.mem_map.1 (List.reduceOption_mem_iff.1 member)
  cases same
  exact covered x inside

/-- A reading whose results correspond has answers that correspond. -/
theorem agree_reading {F : Heap → Except Error α} {F' : Heap → Except Error β} (k : α → β) (f : α → Answer) (f' : β → Answer)
    (mirrors : φ.Mirrors m.heap m'.heap) (same : F' m'.heap = (F m.heap).map k)
    (answers : ∀ a, F m.heap = .ok a → Answers (f a) (f' (k a)) φ m.heap m'.heap) :
    φ.Agree m m' Answers ((inspect fun h => (F h).map f).run m) ((inspect fun h => (F' h).map f').run m') := by
  rw [run_inspect, run_inspect, same]
  cases read : F m.heap with
  | error e => exact .failed mirrors (.refl φ m m')
  | ok a => exact .done mirrors (.refl φ m m') (answers a read)

/-- Readings that give no objects. -/
theorem agree_value {F F' : Heap → Except Error α} (f : α → Answer) (plain : ∀ a, (f a).handles = [])
    (fixed : ∀ a k, (f a).map k = f a) (mirrors : φ.Mirrors m.heap m'.heap) (same : F' m'.heap = F m.heap) :
    φ.Agree m m' Answers ((inspect fun h => (F h).map f).run m) ((inspect fun h => (F' h).map f).run m') := by
  refine agree_reading id f f mirrors (by rw [same]; cases F m.heap <;> rfl) fun a _ => ⟨?_, (fixed a _).symm⟩
  rw [plain]
  exact List.forall_mem_nil _

theorem agree_read (r : Reading Handle) (mirrors : φ.Mirrors m.heap m'.heap) (covered : ∀ x ∈ r.operands, φ.covers x) :
    φ.Agree m m' Answers ((inspect r.read).run m) ((inspect (r.map φ.partner).read).run m') := by
  have record : ∀ {x r}, φ.covers x → m.heap.dictRecord x = .ok r → φ.covers r.keys ∧ φ.covers r.vals := by
    intro x r table read
    have found := dictRecord_eq_ok_iff.1 read
    exact ⟨mirrors.covers_ref table found (by simp [Payload.refs, Payload.children]),
      mirrors.covers_ref table found (by simp [Payload.refs, Payload.children])⟩
  cases r with
  | compare x y =>
    have left := covered x (by simp [Reading.operands])
    have right := covered y (by simp [Reading.operands])
    exact agree_value .compared (fun _ => rfl) (fun _ _ => rfl) mirrors (mirrors.compare left right)
  | print tag x =>
    have operand := covered x List.mem_cons_self
    have same : Reading.output m'.heap tag (φ.partner x) = Reading.output m.heap tag x := by
      have bare : m'.heap.print .buffer (φ.partner x) = m.heap.print .buffer x := mirrors.printing _ _ _ operand
      cases tag with
      | none => simp only [Reading.output, bare]
      | some tag => simp only [Reading.output, printTagged, mirrors.expectTag operand, bare]
    refine .done mirrors (.refl φ m m') ⟨List.forall_mem_nil _, ?_⟩
    exact same
  | listLength x =>
    refine agree_value .count (fun _ => rfl) (fun _ _ => rfl) mirrors ?_
    rw [listLength, listLength, mirrors.listRecord (covered x List.mem_cons_self)]
    cases m.heap.listRecord x <;> rfl
  | listItems x =>
    have operand := covered x List.mem_cons_self
    refine agree_reading _ _ _ mirrors (mirrors.listItems operand) fun xs read => answers_items ?_
    rcases mirrors.list_cases operand with ⟨e, error, -⟩ | ⟨s, ys, has⟩
    · rw [Heap.listItems, error] at read
      cases read
    · rw [has.listItems] at read
      cases read
      exact (mirrors.hasItems operand has).2.2
  | dictLength x =>
    refine agree_value .count (fun _ => rfl) (fun _ _ => rfl) mirrors ?_
    rw [dictLength, dictLength, mirrors.dictRecord (covered x List.mem_cons_self)]
    cases m.heap.dictRecord x <;> rfl
  | dictKeys x =>
    have operand := covered x List.mem_cons_self
    exact agree_reading _ (fun r : DictRecord => .one r.keys) (fun r : DictRecord => .one r.keys) mirrors (mirrors.dictRecord operand) fun r read =>
      answers_one (record operand read).1 rfl
  | dictVals x =>
    have operand := covered x List.mem_cons_self
    exact agree_reading _ (fun r : DictRecord => .one r.vals) (fun r : DictRecord => .one r.vals) mirrors (mirrors.dictRecord operand) fun r read =>
      answers_one (record operand read).2 rfl
  | tupleLength x =>
    refine agree_value .count (fun _ => rfl) (fun _ _ => rfl) mirrors ?_
    rw [tupleLength, tupleLength, mirrors.tupleItems (covered x List.mem_cons_self)]
    cases m.heap.tupleItems x with
    | error e => rfl
    | ok xs => exact congrArg Except.ok (List.length_map _)
  | tupleItems x =>
    have operand := covered x List.mem_cons_self
    exact agree_reading _ _ _ mirrors (mirrors.tupleItems operand) fun xs read =>
      answers_items fun y member => mirrors.covers_ref operand (tupleItems_eq_ok_iff.1 read) member
  | tupleElement x index =>
    have operand := covered x List.mem_cons_self
    refine agree_reading _ _ _ mirrors (mirrors.tupleElement operand index) fun y read => answers_one ?_ rfl
    obtain ⟨items, tuple, member⟩ := tupleElement_mem read
    exact mirrors.covers_ref operand (tupleItems_eq_ok_iff.1 tuple) member
  | strText x =>
    exact agree_value .text (fun _ => rfl) (fun _ _ => rfl) mirrors (mirrors.strText (covered x List.mem_cons_self))
  | strEquals x text =>
    exact agree_value .flag (fun _ => rfl) (fun _ _ => rfl) mirrors (mirrors.strEquals (covered x List.mem_cons_self) text)
  | intValue x =>
    exact agree_value .number (fun _ => rfl) (fun _ _ => rfl) mirrors (mirrors.intValue (covered x List.mem_cons_self))
  | sliceBounds x =>
    have operand := covered x List.mem_cons_self
    refine agree_reading _ (fun r : SliceRecord => .objects [r.start, r.stop, r.step]) (fun r : SliceRecord => .objects [r.start, r.stop, r.step])
      mirrors (mirrors.sliceRecord operand) fun r read => ⟨fun y member => ?_, rfl⟩
    refine mirrors.covers_ref operand (sliceRecord_eq_ok_iff.1 read) (Payload.mem_refs_slice.2 ?_)
    simpa [Answer.handles, List.reduceOption_mem_iff, eq_comm] using member
  | sliceIndices x length =>
    exact agree_value .indices (fun _ => rfl) (fun _ _ => rfl) mirrors (mirrors.sliceIndices (covered x List.mem_cons_self) length)
  | render x =>
    exact agree_value .text (fun _ => rfl) (fun _ _ => rfl) mirrors (mirrors.render (covered x List.mem_cons_self))

/-- An operation with its answer. -/
theorem Agree.answered {op : HeapM α} {op' : HeapM β} {ends : α → β → Pairing → Heap → Heap → Prop}
    (agree : φ.Agree m m' ends (op.run m) (op'.run m')) {f : α → Answer} {f' : β → Answer}
    (answers : ∀ a b φ' h' g', ends a b φ' h' g' → Answers (f a) (f' b) φ' h' g') :
    φ.Agree m m' Answers ((f <$> op).run m) ((f' <$> op').run m') := by
  rw [map_eq_pure_bind, map_eq_pure_bind]
  exact agree.bind fun a b φ₁ m₁ m₂ mirrored holds => agree_pure mirrored (answers a b φ₁ _ _ holds)

theorem agree_act (a : Action Handle) (mirrors : φ.Mirrors m.heap m'.heap) (covered : ∀ x ∈ a.operands, φ.covers x)
    (rooted : ∀ x ∈ a.operands, m.heap.Rooted x) : φ.Agree m m' Answers (a.run.run m) ((a.map φ.partner).run.run m') := by
  cases a with
  | list => exact (agree_newList mirrors).answered fun _ _ _ _ _ ⟨inside, partner, _⟩ => answers_one inside partner
  | dict => exact (agree_newDict mirrors).answered fun _ _ _ _ _ ⟨inside, partner⟩ => answers_one inside partner
  | str text => exact (agree_newStr mirrors text).answered fun _ _ _ _ _ ⟨inside, partner⟩ => answers_one inside partner
  | int value => exact (agree_newInt mirrors value).answered fun _ _ _ _ _ ⟨inside, partner⟩ => answers_one inside partner
  | tuple items => exact (agree_newTuple mirrors covered).answered fun _ _ _ _ _ ⟨inside, partner⟩ => answers_one inside partner
  | slice start stop step =>
    exact (agree_newSlice mirrors covered).answered fun _ _ _ _ _ ⟨inside, partner⟩ => answers_one inside partner
  | listAppend l x =>
    simp only [Action.operands, List.forall_mem_cons] at covered rooted
    exact (agree_append mirrors covered.1 rooted.1 covered.2.1).answered fun _ _ _ _ _ _ => answers_nothing
  | listGet l index =>
    exact (agree_get mirrors (covered l List.mem_cons_self) index).answered fun _ _ _ _ _ ⟨inside, partner⟩ =>
      answers_one inside partner
  | listSet l index x =>
    simp only [Action.operands, List.forall_mem_cons] at covered
    exact (agree_set mirrors covered.1 covered.2.1 index).answered fun _ _ _ _ _ _ => answers_nothing
  | listInsert l index x =>
    simp only [Action.operands, List.forall_mem_cons] at covered rooted
    exact (agree_insert mirrors covered.1 rooted.1 covered.2.1 index).answered fun _ _ _ _ _ _ => answers_nothing
  | listRemoveAt l index =>
    exact (agree_removeAt mirrors (covered l List.mem_cons_self) index).answered fun _ _ _ _ _ _ => answers_nothing
  | listIndexOf l value =>
    simp only [Action.operands, List.forall_mem_cons] at covered
    refine (agree_indexOf mirrors covered.1 covered.2.1).answered fun i i' _ _ _ ⟨same, _⟩ => ?_
    rw [same]
    exact ⟨nofun, rfl⟩
  | listRemove l value =>
    simp only [Action.operands, List.forall_mem_cons] at covered
    exact (agree_remove mirrors covered.1 covered.2.1).answered fun _ _ _ _ _ _ => answers_nothing
  | listReplicate l count =>
    exact (agree_replicate mirrors (covered l List.mem_cons_self) (rooted l List.mem_cons_self) count).answered
      fun _ _ _ _ _ ⟨inside, partner⟩ => answers_one inside partner
  | listCopy l =>
    exact (agree_replicate mirrors (covered l List.mem_cons_self) (rooted l List.mem_cons_self) 1).answered
      fun _ _ _ _ _ ⟨inside, partner⟩ => answers_one inside partner
  | listClear l =>
    exact (agree_clear mirrors (covered l List.mem_cons_self)).answered fun _ _ _ _ _ _ => answers_nothing
  | listSlice l start stop step =>
    exact (agree_slice mirrors (covered l List.mem_cons_self) (rooted l List.mem_cons_self) start stop step).answered
      fun _ _ _ _ _ ⟨inside, partner⟩ => answers_one inside partner
  | listSliceBy l bounds =>
    simp only [Action.operands, List.forall_mem_cons] at covered rooted
    exact (agree_sliceBy mirrors covered.1 rooted.1 covered.2.1).answered fun _ _ _ _ _ ⟨inside, partner⟩ =>
      answers_one inside partner
  | listStoreSlice l start stop source =>
    simp only [Action.operands, List.forall_mem_cons] at covered rooted
    exact (agree_storeSlice mirrors covered.1 rooted.1 covered.2.1 rooted.2.1 start stop).answered fun _ _ _ _ _ _ =>
      answers_nothing
  | dictSet d key value =>
    simp only [Action.operands, List.forall_mem_cons] at covered rooted
    exact (agree_tableCall (.set key value) mirrors covered.1 rooted.1 fun x member => by
      rcases List.mem_pair.1 member with rfl | rfl
      · exact covered.2.1
      · exact covered.2.2.1).answered fun _ _ _ _ _ _ => answers_nothing
  | dictErase d key =>
    simp only [Action.operands, List.forall_mem_cons] at covered rooted
    exact (agree_tableCall (.erase key) mirrors covered.1 rooted.1 fun x member => by
      rw [List.mem_singleton.1 member]
      exact covered.2.1).answered fun _ _ _ _ _ _ => answers_nothing
  | dictClear d =>
    exact (agree_tableCall .clear mirrors (covered d List.mem_cons_self) (rooted d List.mem_cons_self) (List.forall_mem_nil _)).answered
      fun _ _ _ _ _ _ => answers_nothing
  | dictLookup d key =>
    simp only [Action.operands, List.forall_mem_cons] at covered
    refine (agree_lookup mirrors covered.1 covered.2.1).answered fun found found' _ _ _ ⟨inside, same⟩ => ?_
    rw [same]
    exact answers_option inside
  | dictLookupText d text =>
    refine (agree_lookupText mirrors (covered d List.mem_cons_self) text).answered fun found found' _ _ _ ⟨inside, same⟩ => ?_
    rw [same]
    exact answers_option inside
  | dictGet d key =>
    simp only [Action.operands, List.forall_mem_cons] at covered
    exact (agree_dictGet mirrors covered.1 covered.2.1).answered fun _ _ _ _ _ ⟨inside, partner⟩ => answers_one inside partner
  | dictEntry d index =>
    refine (agree_entry mirrors (covered d List.mem_cons_self) index).answered fun e e' _ _ _ ⟨key, value, same⟩ => ?_
    rw [same]
    refine ⟨fun x member => ?_, rfl⟩
    rcases List.mem_pair.1 member with rfl | rfl
    · exact key
    · exact value

theorem agree_root (r : RootCall Handle) (mirrors : φ.Mirrors m.heap m'.heap) (covered : ∀ x ∈ r.operands, φ.covers x) :
    φ.Agree m m' Answers (r.run.run m) ((r.map φ.partner).run.run m') := by
  have roots := mirrors.roots
  have root : ∀ x, x ∈ m.heap.roots.globals.toList ∨ x ∈ m.heap.roots.stack ∨ x ∈ m.heap.roots.inFlight → φ.covers x := by
    intro x member
    refine mirrors.covers_root ?_
    simpa [RootSet.toList, or_assoc] using member
  cases r with
  | setGlobals globals =>
    refine Agree.answered (agree_modifyRoots (fun r => { r with globals := globals })
      (fun r => { r with globals := globals.map φ.partner }) mirrors rfl fun x member => ?_) fun _ _ _ _ _ _ => answers_nothing
    simp only [RootSet.toList, List.mem_append, or_assoc] at member
    exact member.elim (covered x) fun other => root x (.inr other)
  | pushRoot x =>
    refine Agree.answered (agree_modifyRoots _ _ mirrors ?_ fun y member => ?_) fun _ _ _ _ _ _ => answers_nothing
    · simp [RootSet.push, RootSet.map]
    · simp only [RootSet.toList, RootSet.push, List.mem_append, List.mem_singleton] at member
      rcases member with (global | old | rfl) | held
      · exact root y (.inl global)
      · exact root y (.inr (.inl old))
      · exact covered y List.mem_cons_self
      · exact root y (.inr (.inr held))
  | truncateRoots depth =>
    refine Agree.answered (agree_modifyRoots _ _ mirrors ?_ fun y member => ?_) fun _ _ _ _ _ _ => answers_nothing
    · simp [RootSet.truncate, RootSet.map]
    · simp only [RootSet.toList, RootSet.truncate, List.mem_append, or_assoc] at member
      exact root y (member.imp_right (Or.imp_left List.mem_of_mem_take))
  | popRoot =>
    have after : φ.Mirrors (m.mapRoots fun r => r.pop.2).heap (m'.mapRoots fun r => r.pop.2).heap := by
      refine mirrors.mapRoots (by simp [RootSet.pop, RootSet.map, List.map_dropLast]) fun y member => ?_
      simp only [RootSet.toList, RootSet.pop, List.mem_append, or_assoc] at member
      exact root y (member.imp_right (Or.imp_left fun inside => (List.dropLast_sublist _).subset inside))
    have popped : m'.heap.roots.pop.1 = m.heap.roots.pop.1.map φ.partner := by
      rw [roots]
      simp [RootSet.pop, RootSet.map]
    refine .done after (continues_of_log rfl rfl) ?_
    show Answers (.objects [m.heap.roots.pop.1]) (.objects [m'.heap.roots.pop.1]) φ _ _
    rw [popped]
    exact answers_option fun x last => root x (.inr (.inl (List.mem_of_getLast? last)))
  | globals =>
    refine .done mirrors (.refl φ m m') ?_
    show Answers (.objects [m.heap.roots.globals]) (.objects [m'.heap.roots.globals]) φ _ _
    rw [roots]
    exact answers_option fun x global => root x (.inl (Option.mem_toList.2 global))
  | rootDepth =>
    refine .done mirrors (.refl φ m m') ⟨List.forall_mem_nil _, ?_⟩
    show Answer.count m'.heap.roots.stack.length = _
    rw [roots]
    exact congrArg Answer.count (List.length_map _)

/-- **Two heaps that mirror each other answer alike**, to the same operation on partners within reach. What becomes
a root need not be within reach before. -/
theorem agree_operation (op : Operation Handle) (mirrors : φ.Mirrors m.heap m'.heap) (covered : ∀ x ∈ op.operands, φ.covers x)
    (rooted : op.adopts = false → ∀ x ∈ op.operands, m.heap.Rooted x) :
    φ.Agree m m' Answers (op.run.run m) ((op.map φ.partner).run.run m') := by
  cases op with
  | read r => exact agree_read r mirrors covered
  | act a => exact agree_act a mirrors covered (rooted rfl)
  | root r => exact agree_root r mirrors covered

end Pairing

end ChunkHeap

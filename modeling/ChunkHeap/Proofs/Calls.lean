import ChunkHeap.Printing
import ChunkHeap.Proofs.Checked
import ChunkHeap.Proofs.Instances
import ChunkHeap.Proofs.NewHeap

/-!
# Calls

What a client can call: readings (`Query`), accesses that move cursors (`Lookup`),
changes (`Update`), and what makes objects (`Creation`). Each keeps a heap sound
when the roots lead to its operands, and gives out live objects only.
-/

namespace ChunkHeap
set_option autoImplicit false

open HeapM Heap

/-! ### Readings -/

/-- Readings that leave the heap as it is. -/
inductive Query where
  | segListLength (list : Handle)
  | segmentCount (list : Handle)
  | segListItems (list : Handle)
  | listLength (list : Handle)
  | listItems (list : Handle)
  | dictLength (dict : Handle)
  | dictKeys (dict : Handle)
  | dictVals (dict : Handle)
  | tupleLength (tuple : Handle)
  | tupleItems (tuple : Handle)
  | tupleElement (tuple : Handle) (index : Int)
  | strText (x : Handle)
  | strEquals (x : Handle) (text : String)
  | intValue (x : Handle)
  | sliceBounds (slice : Handle)
  | sliceIndices (slice : Handle) (length : Nat)
  | functionName (func : Handle)
  | className (x : Handle)
  | classAttrs (x : Handle)
  | methodParts (method : Handle)
  | methodCall (method : Handle) (args : List Handle)
  | print (tag : Tag) (x : Handle)

namespace Query

def operands : Query → List Handle
  | segListLength x | segmentCount x | segListItems x | listLength x | listItems x | dictLength x | dictKeys x
  | dictVals x | tupleLength x | tupleItems x | tupleElement x _ | strText x | strEquals x _ | intValue x | sliceBounds x
  | sliceIndices x _ | functionName x | className x | classAttrs x | methodParts x | print _ x => [x]
  | methodCall x args => x :: args

/-- The objects that a reading gives; numbers and texts are left out. -/
def read (h : Heap) : Query → Except Error (List Handle)
  | segListLength x => (h.segListLength x).map fun _ => []
  | segmentCount x => (h.segmentCount x).map fun _ => []
  | segListItems x => h.segListItems x
  | listLength x => (h.listLength x).map fun _ => []
  | listItems x => h.listItems x
  | dictLength x => (h.dictLength x).map fun _ => []
  | dictKeys x => (h.dictRecord x).map fun r => [r.keys]
  | dictVals x => (h.dictRecord x).map fun r => [r.vals]
  | tupleLength x => (h.tupleLength x).map fun _ => []
  | tupleItems x => h.tupleItems x
  | tupleElement x index => (h.tupleElement x index).map fun item => [item]
  | strText x => (h.strText x).map fun _ => []
  | strEquals x text => (h.strEquals x text).map fun _ => []
  | intValue x => (h.intValue x).map fun _ => []
  | sliceBounds x => (h.sliceRecord x).map fun r => r.start.toList ++ r.stop.toList ++ r.step.toList
  | sliceIndices x length => (h.sliceIndices x length).map fun _ => []
  | functionName x => (h.functionRecord x).map fun r => [r.name]
  | className x => (h.classRecord x).map fun r => [r.name]
  | classAttrs x => (h.classRecord x).map fun r => [r.attrs]
  | methodParts x => (h.methodRecord x).map fun r => [r.func, r.receiver]
  | methodCall x args => (h.methodCall x args).map fun target => target.1 :: target.2
  | print tag x => do
    h.expectTag x tag
    let _ ← h.render x
    return []

end Query

/-- A mapped reading comes from a reading. -/
theorem except_map_ok {ε α β : Type} {e : Except ε α} {f : α → β} {b : β} (mapped : e.map f = .ok b) :
    ∃ a, e = .ok a ∧ f a = b := by
  cases e with
  | error _ => cases mapped
  | ok a => exact ⟨a, rfl, Except.ok.inj mapped⟩

/-- Two readings, one after the other. -/
theorem except_bind_ok {ε α β : Type} {e : Except ε α} {f : α → Except ε β} {b : β} (bound : e >>= f = .ok b) :
    ∃ a, e = .ok a ∧ f a = .ok b := by
  cases e with
  | error _ => cases bound
  | ok a => exact ⟨a, rfl, bound⟩

variable {h : Heap} {x y : Handle} {items : List Handle}

theorem Heap.Sound.found_tupleElement {index : Int} (sound : h.Sound none) (read : h.tupleElement x index = .ok y) :
    h.Found x y := by
  cases tuple : h.tupleItems x with
  | error e => simp [tupleElement, tuple, bind, Except.bind] at read
  | ok items =>
    simp only [tupleElement, tuple, bind, Except.bind] at read
    split at read
    · rename_i item selected
      cases read
      obtain ⟨i, -, here⟩ := Option.bind_eq_some_iff.1 selected
      exact sound.found_of_ref (tupleItems_eq_ok_iff.1 tuple) (List.mem_of_getElem? here)
    · cases read

/-- What a reading gives is live. -/
theorem Query.elements (q : Query) (sound : h.Sound none) (operands : ∀ x ∈ q.operands, h.Element x)
    (read : q.read h = .ok items) : ∀ y ∈ items, h.Element y := by
  have nothing : ∀ {α : Type} {e : Except Error α}, e.map (fun _ => ([] : List Handle)) = .ok items → ∀ y ∈ items, h.Element y := by
    intro α e mapped y member
    obtain ⟨-, -, rfl⟩ := except_map_ok mapped
    cases member
  have ref : ∀ {x p}, h.find? x = some p → items ⊆ p.refs → ∀ y ∈ items, h.Element y :=
    fun live inside y member => sound.refs _ _ live y (inside member)
  cases q with
  | segListLength | segmentCount | listLength | dictLength | tupleLength | strText | strEquals | intValue
  | sliceIndices => exact nothing read
  | segListItems x => exact fun y member => (sound.found_segListItems read y member).1
  | listItems x => exact fun y member => (sound.found_listItems read y member).1
  | dictKeys x =>
    obtain ⟨r, record, rfl⟩ := except_map_ok read
    exact ref (dictRecord_eq_ok_iff.1 record) (by simp [Payload.refs, Payload.children])
  | dictVals x =>
    obtain ⟨r, record, rfl⟩ := except_map_ok read
    exact ref (dictRecord_eq_ok_iff.1 record) (by simp [Payload.refs, Payload.children])
  | tupleItems x => exact ref (tupleItems_eq_ok_iff.1 read) (List.Subset.refl _)
  | tupleElement x index =>
    obtain ⟨item, element, rfl⟩ := except_map_ok read
    intro y member
    rw [List.mem_singleton.1 member]
    exact (sound.found_tupleElement element).1
  | sliceBounds x =>
    obtain ⟨r, record, rfl⟩ := except_map_ok read
    exact ref (sliceRecord_eq_ok_iff.1 record) (List.Subset.refl _)
  | functionName x =>
    obtain ⟨r, record, rfl⟩ := except_map_ok read
    exact ref (functionRecord_eq_ok_iff.1 record) (List.Subset.refl _)
  | className x =>
    obtain ⟨r, record, rfl⟩ := except_map_ok read
    rcases classRecord_eq_ok_iff.1 record with live | live
    · exact ref live (by simp [Payload.refs, Payload.children])
    · exact ref live (by simp [Payload.refs, Payload.children])
  | classAttrs x =>
    obtain ⟨r, record, rfl⟩ := except_map_ok read
    rcases classRecord_eq_ok_iff.1 record with live | live
    · exact ref live (by simp [Payload.refs, Payload.children])
    · exact ref live (by simp [Payload.refs, Payload.children])
  | methodParts x =>
    obtain ⟨r, record, rfl⟩ := except_map_ok read
    exact ref (methodRecord_eq_ok_iff.1 record) (List.Subset.refl _)
  | methodCall x args =>
    obtain ⟨target, called, rfl⟩ := except_map_ok read
    cases record : h.methodRecord x with
    | error e => simp [Heap.methodCall, record, bind, Except.bind] at called
    | ok r =>
      have parts := sound.refs _ _ (methodRecord_eq_ok_iff.1 record)
      simp only [Heap.methodCall, record, bind, Except.bind] at called
      cases called
      intro y member
      rcases List.mem_cons.1 member with rfl | member
      · exact parts _ (by simp [Payload.refs, Payload.children])
      · rcases List.mem_cons.1 member with rfl | arg
        · exact parts _ (by simp [Payload.refs, Payload.children])
        · exact operands y (List.mem_cons_of_mem x arg)
  | print tag x =>
    cases tagged : h.expectTag x tag with
    | error e => simp [Query.read, tagged, bind, Except.bind] at read
    | ok _ =>
      cases text : h.render x with
      | error e => simp [Query.read, tagged, text, bind, Except.bind] at read
      | ok _ =>
        simp only [Query.read, tagged, text, bind, Except.bind] at read
        cases read
        exact fun y member => by cases member

/-! ### Accesses -/

/-- Accesses that move cursors. -/
inductive Lookup where
  | segListItem (list : Handle) (index : Nat)
  | listItem (list : Handle) (index : Int)
  | listIndex (list value : Handle)
  | dictLookup (dict key : Handle)
  | dictLookupText (dict : Handle) (text : String)
  | dictItem (dict key : Handle)
  | dictEntry (dict : Handle) (index : Nat)
  | getAttribute (x key : Handle)

namespace Lookup

def operands : Lookup → List Handle
  | segListItem x _ | listItem x _ | dictLookupText x _ | dictEntry x _ => [x]
  | listIndex x y | dictLookup x y | dictItem x y | getAttribute x y => [x, y]

def run : Lookup → HeapM (List Handle)
  | segListItem list index => do return [← SegList.get list index]
  | listItem list index => do return [← ListObject.get list index]
  | listIndex list value => do
    let _ ← ListObject.indexOf list value
    return []
  | dictLookup dict key => do return (← DictObject.lookup dict key).toList
  | dictLookupText dict text => do return (← DictObject.lookupText dict text).toList
  | dictItem dict key => do return [← DictObject.get dict key]
  | dictEntry dict index => do
    let entry ← DictObject.entry dict index
    return [entry.1, entry.2]
  | getAttribute x key => do return [← ClassObject.get x key]

/-- An access reads only, and finds live objects. -/
theorem reads (l : Lookup) : Reads (fun _ => True) l.run fun xs h => ∀ y ∈ xs, h.Element y := by
  have one : ∀ {op : HeapM Handle}, Reads (fun _ => True) op (fun x h => h.Element x) →
      Reads (fun _ => True) (do return [← op]) fun xs h => ∀ y ∈ xs, h.Element y := fun reads =>
    reads.bind fun x => reads_pure [x] fun h element y member => List.mem_singleton.1 member ▸ element
  have maybe : ∀ {op : HeapM (Option Handle)}, Reads (fun _ => True) op (fun found h => ∀ x ∈ found, h.Element x) →
      Reads (fun _ => True) (do return (← op).toList) fun xs h => ∀ y ∈ xs, h.Element y := fun reads =>
    reads.bind fun found => reads_pure found.toList fun h elements y member => elements y (Option.mem_toList.1 member)
  cases l with
  | segListItem list index => exact one ((SegList.reads_get list index).mono (fun _ _ => trivial) fun _ _ found => found.1)
  | listItem list index => exact one (ListObject.reads_get list index)
  | listIndex list value =>
    exact (ListObject.reads_indexOf list value).bind fun _ => reads_pure [] fun _ _ _ member => by cases member
  | dictLookup dict key => exact maybe (DictObject.reads_lookup dict key)
  | dictLookupText dict text => exact maybe (DictObject.reads_lookupText dict text)
  | dictItem dict key => exact one (DictObject.reads_get dict key)
  | dictEntry dict index =>
    refine (DictObject.reads_entry dict index).bind fun entry => reads_pure _ fun h ⟨key, value⟩ y member => ?_
    rcases List.mem_pair.1 member with rfl | rfl
    · exact key.1
    · exact value.1
  | getAttribute x key => exact one (ClassObject.reads_get x key)

end Lookup

/-! ### Changes -/

/-- Changes to containers. -/
inductive Update where
  | segListAppend (list x : Handle)
  | segListInsert (list x : Handle) (index : Nat)
  | segListSet (list : Handle) (index : Nat) (x : Handle)
  | segListRemove (list : Handle) (index : Nat)
  | segListClear (list : Handle)
  | listAppend (list x : Handle)
  | listInsert (list : Handle) (index : Int) (x : Handle)
  | listSet (list : Handle) (index : Int) (x : Handle)
  | listRemoveAt (list : Handle) (index : Int)
  | listRemove (list value : Handle)
  | listClear (list : Handle)
  | listStoreSlice (list : Handle) (start stop : Int) (source : Handle)
  | dictSet (dict key value : Handle)
  | dictErase (dict key : Handle)
  | dictClear (dict : Handle)
  | setAttribute (x key value : Handle)

namespace Update

def operands : Update → List Handle
  | segListRemove x _ | segListClear x | listRemoveAt x _ | listClear x | dictClear x => [x]
  | segListAppend x y | segListInsert x y _ | segListSet x _ y | listAppend x y | listInsert x _ y | listSet x _ y
  | listRemove x y | listStoreSlice x _ _ y | dictErase x y => [x, y]
  | dictSet x y z | setAttribute x y z => [x, y, z]

/-- The segmented list that is changed directly. -/
def segList? : Update → Option Handle
  | segListAppend x _ | segListInsert x _ _ | segListSet x _ _ | segListRemove x _ | segListClear x => some x
  | _ => none

def run : Update → HeapM Unit
  | segListAppend list x => SegList.append list x
  | segListInsert list x index => SegList.insert list x index
  | segListSet list index x => SegList.set list index x
  | segListRemove list index => SegList.remove list index
  | segListClear list => SegList.clear list
  | listAppend list x => ListObject.append list x
  | listInsert list index x => ListObject.insert list index x
  | listSet list index x => ListObject.set list index x
  | listRemoveAt list index => ListObject.removeAt list index
  | listRemove list value => ListObject.remove list value
  | listClear list => ListObject.clear list
  | listStoreSlice list start stop source => ListObject.storeSlice list start stop source
  | dictSet dict key value => DictObject.set dict key value
  | dictErase dict key => DictObject.erase dict key
  | dictClear dict => DictObject.clear dict
  | setAttribute x key value => ClassObject.set x key value

/-- Setting an attribute is storing in the table of the object. -/
theorem keeps_setAttribute (x key value : Handle) :
    Keeps false (fun _ => True) (fun h => h.Anchored x ∧ h.Element key ∧ h.Element value) (ClassObject.set x key value)
      fun _ _ => True := by
  have record : Keeps false (fun _ => True) (fun h => h.Anchored x ∧ h.Element key ∧ h.Element value)
      (inspect fun h => h.classRecord x) fun r h => h.Anchored r.attrs ∧ h.Element key ∧ h.Element value := by
    intro m sound ⟨anchored, key_live, value_live⟩
    refine ⟨Kept.refl sound, fun r read => ⟨?_, key_live, value_live⟩⟩
    rcases classRecord_eq_ok_iff.1 read with live | live
    · exact ⟨reaches_edge anchored.1 live (by simp [Payload.children]),
        sound.refs x _ live _ (by simp [Payload.refs, Payload.children])⟩
    · exact ⟨reaches_edge anchored.1 live (by simp [Payload.children]),
        sound.refs x _ live _ (by simp [Payload.refs, Payload.children])⟩
  exact record.bind fun r => DictObject.keeps_put r.attrs key value

/-- Every change keeps a heap sound, unless it is made to the storage of a
container behind its back. -/
theorem keeps (u : Update) :
    Keeps false (fun _ => True) (fun h => (∀ x ∈ u.operands, h.Anchored x) ∧
      ∀ s ∈ u.segList?, ∀ y p, h.find? y = some p → s ∉ p.storages) u.run fun _ _ => True := by
  have direct : ∀ {pin s resize} {op : HeapM Unit} {pre : Heap → Prop},
      (∀ m, m.heap.Sound none → pre m.heap → Updated pin s resize m.heap (op.run m)) →
      Keeps false (fun _ => True) (fun h => pre h ∧ ∀ t ∈ some s, ∀ y p, h.find? y = some p → t ∉ p.storages) op
        fun _ _ => True := by
    intro pin s resize op pre updates m sound ⟨start, unowned⟩
    refine ⟨(updates m sound start).kept sound (fun y p found stored => ?_) trivial, fun _ _ => trivial⟩
    exact absurd stored (unowned s rfl y p found)
  cases u with
  | segListAppend list x =>
    exact direct fun m sound anchored => SegList.append_updated sound.orderly (anchored list (by simp [operands])).1
      (anchored x (by simp [operands])).2
  | segListInsert list x index =>
    exact direct fun m sound anchored => SegList.insert_updated index sound.orderly (anchored list (by simp [operands])).1
      (anchored x (by simp [operands])).2
  | segListSet list index x =>
    exact direct fun m sound anchored => SegList.set_updated index sound.orderly (anchored x (by simp [operands])).2
  | segListRemove list index => exact direct fun m sound _ => SegList.remove_updated index sound.orderly
  | segListClear list => exact direct fun m sound _ => SegList.clear_updated sound.orderly
  | listAppend list x =>
    exact (ListObject.keeps_append (fun _ => False) list x).mono (fun h ⟨anchored, _⟩ => ⟨(anchored x (by simp [operands])).2,
      anchored list (by simp [operands]), fun _ none => none.elim⟩) fun _ _ _ => trivial
  | listInsert list index x =>
    exact (ListObject.keeps_insert (fun _ => False) list index x).mono (fun h ⟨anchored, _⟩ =>
      ⟨(anchored x (by simp [operands])).2, anchored list (by simp [operands]), fun _ none => none.elim⟩) fun _ _ _ => trivial
  | listSet list index x =>
    refine (ListObject.keeps_set (· = x) list index rfl).mono (fun h ⟨anchored, _⟩ y same => ?_) fun _ _ _ => trivial
    exact (anchored y (by simp [operands, same])).2
  | listRemoveAt list index =>
    exact (ListObject.keeps_removeAt (fun _ => False) list index).mono (fun _ _ _ none => none.elim) fun _ _ _ => trivial
  | listRemove list value => exact (ListObject.keeps_remove list value).mono (fun _ _ => trivial) fun _ _ _ => trivial
  | listClear list =>
    exact (ListObject.keeps_clear (fun _ => False) list).mono (fun _ _ _ none => none.elim) fun _ _ _ => trivial
  | listStoreSlice list start stop source =>
    exact (ListObject.keeps_storeSlice list start stop source).mono (fun h ⟨anchored, _⟩ =>
      ⟨anchored list (by simp [operands]), anchored source (by simp [operands])⟩) fun _ _ _ => trivial
  | dictSet dict key value =>
    exact (DictObject.keeps_put dict key value).mono (fun h ⟨anchored, _⟩ => ⟨anchored dict (by simp [operands]),
      (anchored key (by simp [operands])).2, (anchored value (by simp [operands])).2⟩) fun _ _ _ => trivial
  | dictErase dict key => exact (DictObject.keeps_erase dict key).mono (fun _ _ => trivial) fun _ _ _ => trivial
  | dictClear dict => exact (DictObject.keeps_clear dict).mono (fun _ _ => trivial) fun _ _ _ => trivial
  | setAttribute x key value =>
    exact (keeps_setAttribute x key value).mono (fun h ⟨anchored, _⟩ => ⟨anchored x (by simp [operands]),
      (anchored key (by simp [operands])).2, (anchored value (by simp [operands])).2⟩) fun _ _ _ => trivial

end Update

/-! ### Making objects -/

/-- Calls that give out a new object, or one that serves as such. -/
inductive Creation where
  | segList
  | list
  | listReplicate (list : Handle) (count : Int)
  | listCopy (list : Handle)
  | listSlice (list : Handle) (start stop step : Int)
  | listSliceBy (list slice : Handle)
  | dict
  | tuple (items : List Handle)
  | str (text : String)
  | int (value : Int32)
  | slice (start stop step : Option Handle)
  | function (name : Handle) (body : Body)
  | cls (name attrs bases : Handle)
  | method (func receiver : Handle)

namespace Creation

def operands : Creation → List Handle
  | segList | list | dict | str _ | int _ => []
  | listReplicate x _ | listCopy x | listSlice x _ _ _ | function x _ => [x]
  | listSliceBy x y | method x y => [x, y]
  | cls x y z => [x, y, z]
  | tuple items => items
  | slice start stop step => start.toList ++ stop.toList ++ step.toList

def run : Creation → HeapM Handle
  | segList => SegList.new
  | list => ListObject.new
  | listReplicate x count => ListObject.replicate x count
  | listCopy x => ListObject.copy x
  | listSlice x start stop step => ListObject.slice x start stop step
  | listSliceBy x bounds => ListObject.sliceBy x bounds
  | dict => DictObject.new
  | tuple items => TupleObject.new items
  | str text => StrObject.new text
  | int value => IntObject.new value
  | slice start stop step => SliceObject.new start stop step
  | function name body => FunctionObject.new name body
  | cls name attrs bases => ClassObject.new name attrs bases
  | method func receiver => MethodObject.new func receiver

end Creation

theorem Heap.sliceBound_cases {bound result : Option Handle} (read : h.sliceBound bound = .ok result) :
    result = none ∨ result = bound := by
  cases bound with
  | none => exact .inl (Except.ok.inj read).symm
  | some x =>
    cases tag : h.tagOf x with
    | error e => simp [sliceBound, tag, bind, Except.bind] at read
    | ok t =>
      simp only [sliceBound, tag, bind, Except.bind] at read
      split at read
      · exact .inl (Except.ok.inj read).symm
      · exact .inr (Except.ok.inj read).symm
      · cases read

/-- A slice has its bounds checked one by one. -/
theorem Heap.sliceOf_bounds {start stop step : Option Handle} {r : SliceRecord} (read : h.sliceOf start stop step = .ok r) :
    h.sliceBound start = .ok r.start ∧ h.sliceBound stop = .ok r.stop ∧ h.sliceBound step = .ok r.step := by
  cases first : h.sliceBound start with
  | error e => simp [sliceOf, first, bind, Except.bind] at read
  | ok start' =>
    cases second : h.sliceBound stop with
    | error e => simp [sliceOf, first, second, bind, Except.bind] at read
    | ok stop' =>
      cases third : h.sliceBound step with
      | error e => simp [sliceOf, first, second, third, bind, Except.bind] at read
      | ok step' =>
        have record : r = { start := start', stop := stop', step := step' } := by
          cases step' with
          | none => simpa [sliceOf, first, second, third, bind, Except.bind, pure, Except.pure, eq_comm] using read
          | some x =>
            simp only [sliceOf, first, second, third, bind, Except.bind] at read
            split at read
            · cases read
            · split at read
              · cases read
              · exact (Except.ok.inj read).symm
        subst record
        exact ⟨rfl, rfl, rfl⟩

/-- The bounds of a slice are among those given. -/
theorem Heap.sliceOf_refs {start stop step : Option Handle} {r : SliceRecord} (read : h.sliceOf start stop step = .ok r) :
    (Payload.slice r).refs ⊆ start.toList ++ stop.toList ++ step.toList := by
  have within : ∀ {bound result : Option Handle}, h.sliceBound bound = .ok result → result.toList ⊆ bound.toList := by
    intro bound result read
    rcases sliceBound_cases read with rfl | rfl
    · exact List.nil_subset _
    · exact List.Subset.refl _
  obtain ⟨first, second, third⟩ := sliceOf_bounds read
  intro y member
  simp only [Payload.refs, Payload.children, List.mem_append] at member ⊢
  exact member.imp (Or.imp (fun here => within first here) fun here => within second here) fun here => within third here

/-- What is made is live, and the heap stays sound. -/
theorem Creation.keeps (c : Creation) :
    Keeps false (fun _ => True) (fun h => ∀ x ∈ c.operands, h.Anchored x) c.run fun x h => h.Element x := by
  have plain : ∀ {pre : Heap → Prop} (p : Payload), p.tag ≠ .seglist → p.tag ≠ .segment → p.storages = [] → p.count = 0 →
      (∀ h, pre h → ∀ y ∈ p.refs, h.Element y) → Keeps false (fun _ => True) pre (allocate p) fun x h => h.Element x := by
    intro pre p list segment storages count refs
    refine (keeps_allocate (fun _ => False) p list segment storages count).mono
      (fun h start => ⟨refs h start, fun _ none => none.elim⟩) fun x h facts => ⟨p, facts.1, segment⟩
  cases c with
  | segList =>
    exact (keeps_allocateBlank (fun _ => False) []).mono (fun _ _ => ⟨by simp, fun _ none => none.elim⟩) fun x _ facts =>
      (facts.1 x (by simp)).element
  | list =>
    refine (ListObject.keeps_new fun _ => False).mono (fun _ _ _ none => none.elim) fun x h facts => ?_
    obtain ⟨⟨s, found, -⟩, -⟩ := facts
    exact ⟨_, found, by simp [Payload.tag]⟩
  | listReplicate x count => exact (ListObject.keeps_replicate x count).mono (fun _ _ => trivial) fun _ _ element => element
  | listCopy x => exact (ListObject.keeps_replicate x 1).mono (fun _ _ => trivial) fun _ _ element => element
  | listSlice x start stop step =>
    exact (ListObject.keeps_slice x start stop step).mono (fun _ _ => trivial) fun _ _ element => element
  | listSliceBy x bounds => exact (ListObject.keeps_sliceBy x bounds).mono (fun _ _ => trivial) fun _ _ element => element
  | dict =>
    refine (DictObject.keeps_new fun _ => False).mono (fun _ _ _ none => none.elim) fun x h facts => ?_
    obtain ⟨⟨keys, vals, found, -⟩, -⟩ := facts
    exact ⟨_, found, by simp [Payload.tag]⟩
  | tuple items =>
    exact plain (.tuple items) (by simp [Payload.tag]) (by simp [Payload.tag]) rfl rfl fun h anchored y member =>
      (anchored y member).2
  | str text =>
    exact plain (.str text) (by simp [Payload.tag]) (by simp [Payload.tag]) rfl rfl fun _ _ _ member => by cases member
  | int value =>
    have shared : Keeps false (fun _ => True) (fun _ => True) heap fun h g => ∀ x, h.intConstant? value = some x → g.Element x := by
      intro m sound _
      refine ⟨Kept.refl sound, fun h same x constant => ?_⟩
      cases same
      refine sound.roots x (List.mem_append_left _ (List.mem_append_right _ ?_))
      unfold intConstant? at constant
      split_ifs at constant <;> cases constant <;> simp [Constants.toList]
    refine (shared.bind fun h => ?_).mono (fun _ _ => trivial) fun _ _ element => element
    cases constant : h.intConstant? value with
    | some x => exact keeps_pure x fun _ live => live x rfl
    | none =>
      exact plain (.int value) (by simp [Payload.tag]) (by simp [Payload.tag]) rfl rfl fun _ _ _ member => by cases member
  | slice start stop step =>
    refine (keeps_inspect fun h r anchored read y member => (anchored y (sliceOf_refs read member)).2).bind fun r => ?_
    exact plain (.slice r) (by simp [Payload.tag]) (by simp [Payload.tag]) rfl rfl fun _ elements => elements
  | function name body =>
    refine (keeps_inspect fun _ _ anchored _ => anchored).bind fun _ => ?_
    exact plain (.function ⟨name, body⟩) (by simp [Payload.tag]) (by simp [Payload.tag]) rfl rfl fun h anchored y member =>
      (anchored y member).2
  | cls name attrs bases =>
    refine (keeps_inspect fun _ _ anchored _ => anchored).bind fun _ => ?_
    refine (keeps_inspect fun _ _ anchored _ => anchored).bind fun _ => ?_
    refine (keeps_inspect fun _ _ anchored _ => anchored).bind fun _ => ?_
    exact plain (.cls ⟨name, attrs, bases⟩) (by simp [Payload.tag]) (by simp [Payload.tag]) rfl rfl fun h anchored y member =>
      (anchored y member).2
  | method func receiver =>
    exact plain (.method ⟨func, receiver⟩) (by simp [Payload.tag]) (by simp [Payload.tag]) rfl rfl fun h anchored y member =>
      (anchored y member).2

end ChunkHeap

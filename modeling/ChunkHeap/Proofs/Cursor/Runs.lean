import ChunkHeap.Proofs.Chain.Refinement
import ChunkHeap.Proofs.Checked
import ChunkHeap.Proofs.Cursor.Containers
import ChunkHeap.Proofs.Likeness.Programs

/-!
# Runs with and without cursors

A run is a sequence of calls on segmented lists, lists and tables, of other
operations of a program, and of collections. Along every run on containers that
the roots lead to, each cursor names the segment at its number in its own chain,
and the run in which all cursors are erased before each call answers the same,
fails the same, reports the same and leaves the same heaps up to cursors
(`ContainerCall.runs_without_cursors`).
-/

namespace ChunkHeap
set_option autoImplicit false

open HeapM Heap

namespace Action

/-- The lists and tables an action works on. -/
def containers {ι : Type} : Action ι → List ι
  | list | dict | tuple _ | str _ | int _ | slice _ _ _ => []
  | listAppend x _ | listGet x _ | listSet x _ _ | listInsert x _ _ | listRemoveAt x _ | listIndexOf x _ | listRemove x _
  | listReplicate x _ | listCopy x | listClear x | listSlice x _ _ _ | listSliceBy x _ | dictSet x _ _ | dictLookup x _
  | dictLookupText x _ | dictGet x _ | dictErase x _ | dictClear x | dictEntry x _ => [x]
  | listStoreSlice x _ _ y => [x, y]

/-- The references that an action stores. -/
def stored {ι : Type} : Action ι → List ι
  | listAppend _ x | listSet _ _ x | listInsert _ _ x => [x]
  | dictSet _ x y => [x, y]
  | tuple items => items
  | slice start stop step => start.toList ++ stop.toList ++ step.toList
  | _ => []

end Action

/-- What a call on containers answers. -/
inductive Reply where
  | answer (a : Answer)
  | collected (stats : CollectStats)

/-- A call on segmented lists, lists or tables, another operation, or a collection. -/
inductive ContainerCall where
  | segList
  | segListLength (s : Handle)
  | segmentCount (s : Handle)
  | segListItems (s : Handle)
  | segListCall (s : Handle) (call : SeqCall)
  | operation (op : Operation Handle)
  | collect

namespace ContainerCall

def run : ContainerCall → HeapM Reply
  | segList => (fun s => .answer (.one s)) <$> SegList.new
  | segListLength s => inspect fun h => (h.segListLength s).map fun n => .answer (.count n)
  | segmentCount s => inspect fun h => (h.segmentCount s).map fun n => .answer (.count n)
  | segListItems s => inspect fun h => (h.segListItems s).map fun xs => .answer (.objects (xs.map some))
  | segListCall s call => (fun found => .answer (.objects [found])) <$> call.onHeap s
  | operation op => .answer <$> op.run
  | collect => .collected <$> HeapM.collect

def containers : ContainerCall → List Handle
  | segListLength s | segmentCount s | segListItems s | segListCall s _ => [s]
  | operation (.act a) => a.containers
  | _ => []

def stored : ContainerCall → List Handle
  | segListCall _ call => call.stored
  | operation (.act a) => a.stored
  | operation (.root r) => r.operands
  | _ => []

/-- The roots lead to the containers of the call, and what it stores is live and no segment. -/
def Legal (call : ContainerCall) (h : Heap) : Prop :=
  (∀ x ∈ call.containers, h.Rooted x) ∧ ∀ x ∈ call.stored, h.Element x

/-! ### Each call -/

variable {α β : Type} {pre : Heap → Prop}

theorem steady_read (read : Heap → Except Error α) (g : α → β) (same : ∀ h, read h.still = read h) :
    Steady pre (inspect fun h => (read h).map g) fun _ _ => True :=
  steady_inspect (fun h => by rw [same]) fun _ _ _ _ _ => trivial

theorem steady_view (g : Heap → β) (same : ∀ h, g h.still = g h) : Steady pre (g <$> heap) fun _ _ => True := by
  rw [map_eq_pure_bind]
  exact steady_heap g same fun b => steady_pure b fun _ _ => trivial

theorem steady_int (value : Int32) : Steady pre (IntObject.new value) fun _ _ => True := by
  have whole : IntObject.new value = heap >>= fun h => (h.intConstant? value).elim (allocate (.int value)) pure := by
    refine congrArg (heap >>= ·) (funext fun h => ?_)
    cases h.intConstant? value <;> rfl
  rw [whole]
  refine steady_heap (k := fun shared => shared.elim (allocate (.int value)) pure) (fun h => h.intConstant? value)
    (fun _ => rfl) fun shared => ?_
  cases shared with
  | some x => exact steady_pure x fun _ _ => trivial
  | none =>
    exact (steady_allocate _ (fun _ same => by cases same) (by simp [Payload.tag]) fun _ _ _ member => by cases member).mono
      (fun _ _ start => start) fun _ _ _ => trivial

theorem steady_slice (start stop step : Option Handle) :
    Steady (fun h => ∀ x ∈ start.toList ++ stop.toList ++ step.toList, h.Element x) (SliceObject.new start stop step)
      fun x h => h.Element x := by
  have read : Steady (fun h => ∀ x ∈ start.toList ++ stop.toList ++ step.toList, h.Element x)
      (inspect fun h => h.sliceOf start stop step) fun r h => ∀ y ∈ (Payload.slice r).refs, h.Element y :=
    steady_inspect (fun h => h.sliceOf_still start stop step) fun _ _ _ elements read y member =>
      elements y (sliceOf_refs read member)
  exact read.bind fun r => steady_allocate _ (fun _ same => by cases same) (by simp [Payload.tag]) fun _ elements => elements

/-- Other roots, taken from those there were and from `adopted`. -/
theorem steady_reroot (g : RootSet → RootSet) (adopted : List Handle)
    (within : ∀ r : RootSet, ∀ x ∈ (g r).toList, x ∈ r.toList ∨ x ∈ adopted) :
    Steady (fun h => ∀ x ∈ adopted, h.Element x) (modifyRoots g) fun _ _ => True := by
  refine steady_modifyRoots g (fun h orderly start x member => ?_) fun _ _ _ => trivial
  rcases within h.roots x member with root | new
  · exact orderly.root root
  · exact start x new

theorem steady_seqCall (s : Handle) (call : SeqCall) :
    Steady (fun h => h.Rooted s ∧ ∀ x ∈ call.stored, h.Element x) (call.onHeap s) fun _ _ => True := by
  have unanswered : ∀ {pre : Heap → Prop} {post : Unit → Heap → Prop} {op : HeapM Unit}, Steady pre op post →
      Steady pre (do op; return none : HeapM (Option Handle)) fun _ _ => True := fun steady =>
    steady.bind fun _ => steady_pure none fun _ _ => trivial
  have nothing : ∀ {pre : Heap → Prop} (h : Heap), h.Orderly → pre h → ∀ y, False → h.Element y := fun _ _ _ _ none => none.elim
  cases call with
  | append x =>
    exact unanswered ((SegList.steady_append (fun _ => False) s x).mono
      (fun _ _ facts => ⟨⟨facts.1, facts.2 x List.mem_cons_self⟩, fun _ none => none.elim⟩) fun _ _ ends => ends)
  | insert i x =>
    exact unanswered ((SegList.steady_insert (fun _ => False) s x i).mono
      (fun _ _ facts => ⟨⟨facts.1, facts.2 x List.mem_cons_self⟩, fun _ none => none.elim⟩) fun _ _ ends => ends)
  | remove i => exact unanswered ((SegList.steady_remove (fun _ => False) s i).mono nothing fun _ _ ends => ends)
  | set i x =>
    exact unanswered ((SegList.steady_set (fun _ => False) s i x).mono
      (fun _ _ facts => ⟨facts.2 x List.mem_cons_self, fun _ none => none.elim⟩) fun _ _ ends => ends)
  | get i => exact ((SegList.steady_get s i fun _ _ _ _ => trivial).map some).mono (fun _ _ _ => trivial) fun _ _ ends => ends
  | clear => exact unanswered ((SegList.steady_clear (fun _ => False) s).mono nothing fun _ _ ends => ends)

theorem read_still (r : Reading Handle) (h : Heap) : Reading.read h.still r = Reading.read h r := by
  cases r with
  | print tag x => cases tag <;> simp [Reading.read, Reading.output]
  | _ => simp [Reading.read]

theorem steady_action (a : Action Handle) :
    Steady (fun h => (∀ x ∈ a.containers, h.Rooted x) ∧ ∀ x ∈ a.stored, h.Element x) a.run fun _ _ => True := by
  cases a with
  | list => exact ListObject.steady_new.map _
  | listAppend l x =>
    exact ((ListObject.steady_append (fun _ => False) l x).map _).mono (fun _ _ facts =>
      ⟨⟨facts.1 l List.mem_cons_self, facts.2 x List.mem_cons_self⟩, fun _ none => none.elim⟩) fun _ _ ends => ends
  | listGet l index => exact (ListObject.steady_get l index).map _
  | listSet l index x =>
    exact ((ListObject.steady_set (fun _ => False) l index x).map _).mono (fun _ _ facts =>
      ⟨facts.2 x List.mem_cons_self, fun _ none => none.elim⟩) fun _ _ ends => ends
  | listInsert l index x =>
    exact ((ListObject.steady_insert (fun _ => False) l index x).map _).mono (fun _ _ facts =>
      ⟨⟨facts.1 l List.mem_cons_self, facts.2 x List.mem_cons_self⟩, fun _ none => none.elim⟩) fun _ _ ends => ends
  | listRemoveAt l index =>
    exact ((ListObject.steady_removeAt (fun _ => False) l index).map _).mono (fun _ _ _ _ none => none.elim) fun _ _ ends => ends
  | listIndexOf l value => exact (ListObject.steady_indexOf l value).map _
  | listRemove l value => exact (ListObject.steady_remove l value).map _
  | listReplicate l count => exact (ListObject.steady_replicate l count).map _
  | listCopy l => exact (ListObject.steady_replicate l 1).map _
  | listClear l => exact (ListObject.steady_clear l).map _
  | listSlice l start stop step => exact (ListObject.steady_slice l start stop step).map _
  | listSliceBy l bounds => exact (ListObject.steady_sliceBy l bounds).map _
  | listStoreSlice l start stop source =>
    exact ((ListObject.steady_storeSlice l start stop source).map _).mono (fun _ _ facts =>
      ⟨facts.1 l (by simp [Action.containers]), facts.1 source (by simp [Action.containers])⟩) fun _ _ ends => ends
  | dict => exact DictObject.steady_new.map _
  | dictSet d key value =>
    exact ((DictObject.steady_set d key value).map _).mono (fun _ _ facts =>
      ⟨facts.1 d List.mem_cons_self, facts.2 key (by simp [Action.stored]), facts.2 value (by simp [Action.stored])⟩)
      fun _ _ ends => ends
  | dictLookup d key => exact (DictObject.steady_lookup d key).map _
  | dictLookupText d text => exact (DictObject.steady_lookupText d text).map _
  | dictGet d key => exact (DictObject.steady_get d key).map _
  | dictErase d key => exact (DictObject.steady_erase d key).map _
  | dictClear d => exact (DictObject.steady_clear d).map _
  | dictEntry d index => exact (DictObject.steady_entry d index).map _
  | tuple items =>
    exact (steady_allocate _ (fun _ same => by cases same) (by simp [Payload.tag]) fun _ facts => facts.2).map _
  | str text =>
    exact (steady_allocate _ (fun _ same => by cases same) (by simp [Payload.tag]) fun _ _ _ member => by cases member).map _
  | int value => exact (steady_int value).map _
  | slice start stop step => exact ((steady_slice start stop step).map _).mono (fun _ _ facts => facts.2) fun _ _ ends => ends

theorem steady_rootCall (r : RootCall Handle) : Steady (fun h => ∀ x ∈ r.operands, h.Element x) r.run fun _ _ => True := by
  cases r with
  | setGlobals globals =>
    refine (steady_reroot _ _ fun r x member => ?_).map _
    simp only [RootSet.toList, List.mem_append] at member ⊢
    tauto
  | globals => exact steady_view _ fun _ => rfl
  | pushRoot x =>
    refine (steady_reroot _ _ fun r y member => ?_).map _
    simp only [RootSet.toList, RootSet.push, List.mem_append] at member ⊢
    tauto
  | popRoot =>
    have pops : Steady (fun _ => True) popRoot fun _ _ => True := by
      refine steady_heap (k := fun popped => do
        modifyRoots fun r => r.pop.2
        return popped) (fun h => h.roots.pop.1) (fun _ => rfl) fun popped => ?_
      refine ((steady_reroot _ [] fun r y member => ?_).mono (fun _ _ _ _ none => by cases none) fun _ _ ends => ends).bind
        fun _ => steady_pure popped fun _ _ => trivial
      simp only [RootSet.toList, RootSet.pop, List.mem_append] at member ⊢
      exact .inl (member.imp_left fun root => root.imp_right fun here => List.dropLast_subset _ here)
    exact (pops.map _).mono (fun _ _ _ => trivial) fun _ _ ends => ends
  | rootDepth => exact steady_view _ fun _ => rfl
  | truncateRoots depth =>
    refine (steady_reroot _ _ fun r y member => ?_).map _
    simp only [RootSet.toList, RootSet.truncate, List.mem_append] at member ⊢
    exact .inl (member.imp_left fun root => root.imp_right List.mem_of_mem_take)

theorem steady_collect : Steady pre HeapM.collect fun _ _ => True where
  leaves m orderly _ := ⟨orderly.swept (fun _ none => by cases none) (.inr rfl), fun _ _ => trivial⟩
  blind := blind_collectWith []

theorem steady (call : ContainerCall) : Steady call.Legal call.run fun _ _ => True := by
  cases call with
  | segList => exact SegList.steady_new.map _
  | segListLength s => exact steady_read (fun h => h.segListLength s) _ fun h => h.segListLength_still s
  | segmentCount s => exact steady_read (fun h => h.segmentCount s) _ fun h => h.segmentCount_still s
  | segListItems s => exact steady_read (fun h => h.segListItems s) _ fun h => h.segListItems_still s
  | segListCall s call =>
    exact ((steady_seqCall s call).map _).mono (fun _ _ legal => ⟨legal.1 s List.mem_cons_self, legal.2⟩) fun _ _ ends => ends
  | operation op =>
    cases op with
    | read r =>
      have reads : Steady (operation (.read r)).Legal (inspect r.read) fun _ _ => True :=
        steady_inspect (read_still r) fun _ _ _ _ _ => trivial
      exact reads.map _
    | act a => exact (steady_action a).map _
    | root r => exact ((steady_rootCall r).map _).mono (fun _ _ legal => legal.2) fun _ _ ends => ends
  | collect => exact steady_collect.map _

/-! ### Runs -/

/-- The outcomes of calls made one after the other, each with the machine it leaves;
`prepare` is done to the machine before each call. -/
def trace (prepare : Machine → Machine) : List ContainerCall → Machine → List (Except Error Reply × Machine)
  | [], _ => []
  | call :: rest, m =>
    call.run.run (prepare m) :: trace prepare rest (call.run.run (prepare m)).2

/-- Every call is legal when it is made. -/
def LegalRun : List ContainerCall → Machine → Prop
  | [], _ => True
  | call :: rest, m => call.Legal m.heap ∧ LegalRun rest (call.run.run m).2

/-- Whether a call is legal cannot be told from cursors. -/
theorem Legal.still {call : ContainerCall} {h : Heap} (legal : call.Legal h) : call.Legal h.still :=
  ⟨fun x member => (legal.1 x member).still, fun x member => (legal.2 x member).still⟩

variable {m : Machine}

/-- A run on a heap in order leaves heaps in order. -/
theorem orderly_trace {calls : List ContainerCall} (orderly : m.heap.Orderly) (legal : LegalRun calls m) :
    ∀ result ∈ trace id calls m, result.2.heap.Orderly := by
  induction calls generalizing m with
  | nil => exact fun _ member => by cases member
  | cons call rest ih =>
    have leaves := (call.steady.leaves m orderly legal.1).1
    intro result member
    rcases List.mem_cons.1 member with rfl | later
    · exact leaves
    · exact ih leaves legal.2 result later

/-- Along two runs from alike machines, one of them with the cursors erased before
each call, the outcomes are the same and the machines stay alike. -/
theorem agree_trace {calls : List ContainerCall} {m' : Machine} (alike : m.Alike m') (orderly : m.heap.Orderly)
    (legal : LegalRun calls m) : List.Forall₂ Agree (trace id calls m) (trace Machine.still calls m') := by
  induction calls generalizing m m' with
  | nil => exact .nil
  | cons call rest ih =>
    obtain ⟨now, later⟩ := legal
    have erased : m'.still = m.still := alike.symm
    have agree : Agree (call.run.run m) (call.run.run m'.still) := by
      rw [erased]
      exact call.steady.blind m m.still m.alike_still ⟨orderly, now⟩ ⟨orderly.still, now.still⟩
    exact .cons agree (ih agree.2 (call.steady.leaves m orderly now).1 later)

/-- **Cursors are immaterial.** Along every run on containers that the roots lead
to, in a heap in order, each cursor that is set names the segment at its number in
the chain of its own list. The same calls with every cursor erased before each of
them have the same answers and the same errors, report the same events and leave
the same heaps up to cursors. -/
theorem runs_without_cursors (calls : List ContainerCall) (orderly : m.heap.Orderly) (legal : LegalRun calls m) :
    (∀ visited ∈ m :: (trace id calls m).map Prod.snd, ∀ list r n seg,
      visited.heap.find? list = some (.seglist r) → r.cursor = some (n, seg) → visited.heap.seekFromHead r n = .ok seg) ∧
    List.Forall₂ (fun plain erased => plain.1 = erased.1 ∧ plain.2.heap.still = erased.2.heap.still ∧
      plain.2.log = erased.2.log) (trace id calls m) (trace Machine.still calls m) := by
  refine ⟨fun visited member list => ?_, (agree_trace (.refl m) orderly legal).imp fun _ _ agree =>
    ⟨agree.1, Machine.alike_iff.1 agree.2⟩⟩
  rcases List.mem_cons.1 member with rfl | later
  · exact orderly.trusted list
  · obtain ⟨result, here, rfl⟩ := List.mem_map.1 later
    exact (orderly_trace orderly legal result here).trusted list

theorem legal_of_passes {calls : List ContainerCall}
    (checked : passes (fun call m => (call.run.run m).2) (fun call m => m.heap.serves call.containers call.stored)
      calls m = true) : LegalRun calls m :=
  of_passes (P := LegalRun) (fun _ => trivial) (fun _ _ _ served later => ⟨serves_spec served, later⟩) checked

/-- Room for a list of two segments and a string. -/
abbrev cramped : Machine :=
  (Machine.create { arenaBytes := 108, maxChunkBytes := 32 }).2

/-- A list grows to a second segment, the cursor moves there, and the segment is
released. A string takes its slot; then the storage is changed behind the back of
the list, and the cursor comes to the new second segment. -/
def recycling : List ContainerCall :=
  [.operation (.act .list), .operation (.root (.pushRoot ⟨5⟩)), .operation (.root (.pushRoot ⟨4⟩))] ++
    ([⟨0⟩, ⟨1⟩, ⟨2⟩, ⟨3⟩, ⟨1⟩, ⟨2⟩, ⟨3⟩, ⟨0⟩, ⟨2⟩].map fun x => .operation (.act (.listAppend ⟨5⟩ x))) ++
    [.segListCall ⟨4⟩ (.get 8), .operation (.act (.listRemoveAt ⟨5⟩ 8)), .operation (.act (.str "x")),
      .operation (.root (.pushRoot ⟨7⟩)), .collect, .segListCall ⟨4⟩ (.insert 0 ⟨5⟩), .operation (.act (.listGet ⟨5⟩ 7)),
      .segListCall ⟨4⟩ (.get 9), .segListCall ⟨4⟩ (.get 8)]

theorem runs_without_cursors_recycling :
    cramped.heap.Orderly ∧ LegalRun recycling cramped ∧
      ((trace id recycling cramped).getLast?.map fun result => result.2.heap.find? ⟨4⟩) =
        some (some (.seglist { head := some ⟨6⟩, tail := some ⟨8⟩, length := 9, cursor := some (1, ⟨8⟩) })) ∧
      List.Forall₂ (fun plain erased => plain.1 = erased.1 ∧ plain.2.heap.still = erased.2.heap.still ∧
        plain.2.log = erased.2.log) (trace id recycling cramped) (trace Machine.still recycling cramped) := by
  have made : Machine.create { arenaBytes := 108, maxChunkBytes := 32 } = (.ok (), cramped) := by rfl
  have orderly := (Machine.create_sound made).1.orderly
  have legal : LegalRun recycling cramped := legal_of_passes (by decide +kernel)
  exact ⟨orderly, legal, by decide +kernel, (runs_without_cursors recycling orderly legal).2⟩

end ContainerCall

end ChunkHeap

import ChunkHeap.Container.Tuple
import ChunkHeap.Printing
import ChunkHeap.Proofs.Reading

/-!
# Erasing cursors

`Heap.still` is a heap with every cursor erased. Cursors are no edges, and no
header depends on them, so erasing them commutes with every primitive: entering
and releasing objects, replacing a payload, and collecting, with the same figures
and the same events. And no reading but that of a segmented list's own record can
tell a heap from its erasure.
-/

namespace ChunkHeap
set_option autoImplicit false

/-- The object with its cursor erased. -/
def Object.still (o : Object) : Object :=
  { o with payload := o.payload.still }

@[simp] theorem Object.still_header (o : Object) : o.still.header = o.header := rfl

@[simp] theorem Object.still_payload (o : Object) : o.still.payload = o.payload.still := rfl

/-- The record without its cursor. -/
def SegListRecord.still (r : SegListRecord) : SegListRecord :=
  { r with cursor := none }

@[simp] theorem Payload.still_still (p : Payload) : p.still.still = p.still := by
  cases p <;> rfl

/-! ### Arenas -/

namespace Arena

/-- The arena with every cursor erased. -/
def still (a : Arena) : Arena :=
  { a with slots := a.slots.map (Slot.mapObject Object.still) }

theorem still_eq_adjust (a : Arena) : a.still = a.adjust fun _ o => o.still := by
  simp only [still, adjust, mk.injEq, and_self, and_true]
  apply Array.ext_getElem?
  intro j
  rw [Array.getElem?_map, Array.getElem?_mapIdx]

@[simp] theorem get?_still (a : Arena) (x : Handle) : a.still.get? x = (a.get? x).map Object.still := by
  rw [still_eq_adjust, get?_adjust]

@[simp] theorem size_still (a : Arena) : a.still.slots.size = a.slots.size := by
  rw [still_eq_adjust, size_adjust]

@[simp] theorem still_still (a : Arena) : a.still.still = a.still := by
  simp only [still_eq_adjust, adjust_adjust]
  congr 1
  funext _ o
  simp [Object.still]

theorem objects_still (a : Arena) : a.still.objects = a.objects.map fun e => (e.1, e.2.still) := by
  rw [still_eq_adjust, objects_adjust]

theorem nextFree_still (a : Arena) (i : Nat) : a.still.nextFree i = a.nextFree i := by
  simp only [nextFree, still, Array.getElem?_map]
  rcases a.slots[i]? with _ | _ | _ <;> rfl

/-- An object without a cursor is entered in the same slot. -/
theorem insert_still (a : Arena) {o : Object} (same : o.still = o) :
    a.still.insert o = ((a.insert o).1, (a.insert o).2.still) := by
  have live : Slot.live o = Slot.mapObject Object.still (.live o) := by rw [Slot.mapObject, same]
  cases head : a.freeHead with
  | some i =>
    simp only [insert, show a.still.freeHead = some i from head, head, nextFree_still]
    simp only [still, Array.map_setIfInBounds, ← live]
  | none =>
    simp only [insert, show a.still.freeHead = none from head, head, size_still]
    simp only [still, Array.map_push, ← live]

theorem remove_still (a : Arena) (x : Handle) :
    a.still.remove x = (a.remove x).map fun e => (e.1.still, e.2.still) := by
  simp only [remove, get?_still, Option.map_map]
  congr 1
  funext o
  simp only [Function.comp_apply, still, Array.map_setIfInBounds, Slot.mapObject]

/-- Changing an object and erasing cursors can be done in either order. -/
theorem update_still (a : Arena) (x : Handle) {f g : Object → Object} (same : ∀ o, g o.still = (f o).still) :
    a.still.update x g = (a.update x f).still := by
  simp only [still_eq_adjust, update_eq_adjust, adjust_adjust]
  congr 1
  funext y o
  split
  · exact same o
  · rfl

theorem setPayload_still (a : Arena) (x : Handle) (p : Payload) :
    a.still.setPayload x p.still = (a.setPayload x p).still :=
  a.update_still x fun _ => rfl

theorem mark_still (a : Arena) (x : Handle) : a.still.mark x = (a.mark x).still :=
  a.update_still x fun _ => rfl

theorem clearMarks_still (a : Arena) : a.still.clearMarks = a.clearMarks.still := by
  simp only [still_eq_adjust, clearMarks_eq_adjust, adjust_adjust]
  rfl

theorem unmarked_still (a : Arena) : a.still.unmarked = a.unmarked.map fun e => (e.1, e.2.still) := by
  rw [unmarked, unmarked, objects_still, List.filter_map]
  rfl

theorem discard_still (a : Arena) (x : Handle) : a.still.discard x = (a.discard x).still := by
  simp only [discard, remove_still]
  cases a.remove x <;> rfl

theorem sweep_still (a : Arena) : a.still.sweep = a.sweep.still := by
  have each : ∀ (entries : List (Handle × Object)) (b : Arena),
      (entries.map fun e => (e.1, e.2.still)).foldl (fun b e => b.discard e.1) b.still =
        (entries.foldl (fun b e => b.discard e.1) b).still := by
    intro entries
    induction entries with
    | nil => exact fun _ => rfl
    | cons e rest ih =>
      intro b
      rw [List.map_cons, List.foldl_cons, List.foldl_cons, ← ih, ← discard_still]
  rw [sweep, unmarked_still]
  exact each _ a

end Arena

/-! ### Collections -/

namespace Tracing

/-- Marking of an arena with every cursor erased. -/
def still (t : Tracing) : Tracing :=
  { t with arena := t.arena.still }

theorem shade_still (t : Tracing) (x : Handle) : t.still.shade x = (t.shade x).still := by
  have found : t.still.arena.get? x = (t.arena.get? x).map Object.still := t.arena.get?_still x
  unfold shade
  rw [found]
  cases t.arena.get? x with
  | none => rfl
  | some o =>
    by_cases marked : o.header.marked = true
    · simp only [Option.map_some, Object.still_header, marked, if_true]
    · simp only [Option.map_some, Object.still_header, marked, still, Arena.mark_still]
      rfl

theorem shadeAll_still (t : Tracing) (xs : List Handle) : t.still.shadeAll xs = (t.shadeAll xs).still := by
  induction xs generalizing t with
  | nil => rfl
  | cons x rest ih =>
    show (t.still.shade x).shadeAll rest = ((t.shade x).shadeAll rest).still
    rw [shade_still, ih]

/-- A cursor is no edge. -/
theorem edges_still (t : Tracing) (x : Handle) : t.still.edges x = t.edges x := by
  have found : t.still.arena.get? x = (t.arena.get? x).map Object.still := t.arena.get?_still x
  unfold edges
  rw [found]
  cases t.arena.get? x with
  | none => rfl
  | some o => exact o.payload.children_still

theorem scan_still (fuel i : Nat) (t : Tracing) : scan fuel i t.still = (scan fuel i t).still := by
  induction fuel generalizing i t with
  | zero => rfl
  | succ fuel ih =>
    rw [scan, scan, show t.still.shaded = t.shaded from rfl]
    cases t.shaded[i]? with
    | none => rfl
    | some x => simp only [edges_still, shadeAll_still, ih]

theorem propagate_still (t : Tracing) : t.still.propagate = t.propagate.still := by
  rw [propagate, propagate, ← scan_still, show t.still.arena.slots.size = t.arena.slots.size from t.arena.size_still]

end Tracing

namespace Heap

/-- The heap with every cursor erased. -/
def still (h : Heap) : Heap :=
  { h with arena := h.arena.still }

@[simp] theorem still_still (h : Heap) : h.still.still = h.still := by
  simp [still]

/-- Shading the roots and erasing cursors can be done in either order. -/
theorem shadeRoots_still (h : Heap) (pins : List Handle) :
    Tracing.shadeAll { arena := h.still.arena.clearMarks } (h.still.collectionRoots pins) =
      (Tracing.shadeAll { arena := h.arena.clearMarks } (h.collectionRoots pins)).still := by
  have start : ({ arena := h.still.arena.clearMarks } : Tracing) = Tracing.still { arena := h.arena.clearMarks } :=
    congrArg (fun a : Arena => ({ arena := a } : Tracing)) h.arena.clearMarks_still
  rw [start, Tracing.shadeAll_still]
  rfl

/-- Collecting and erasing cursors can be done in either order, and the collection
reports the same. -/
theorem collectWith_still (h : Heap) (pins : List Handle) :
    h.still.collectWith pins = { h.collectWith pins with heap := (h.collectWith pins).heap.still } := by
  have traced : ∀ t : Tracing, Tracing.propagate { t.still with stray := #[] } =
      (Tracing.propagate { t with stray := #[] }).still := fun t => Tracing.propagate_still { t with stray := #[] }
  have live : ∀ a : Arena, a.still.liveCount = a.liveCount := fun _ => rfl
  simp only [collectWith, shadeRoots_still, traced]
  generalize Tracing.shadeAll { arena := h.arena.clearMarks } (h.collectionRoots pins) = shaded
  generalize Tracing.propagate { shaded with stray := #[] } = t
  simp only [Tracing.still, Arena.unmarked_still, Arena.sweep_still, List.length_map, total_eq_sum, List.map_map, live]
  rfl

/-! ### Readings -/

variable (h : Heap) (x : Handle)

theorem find?_still : h.still.find? x = (h.find? x).map Payload.still := by
  simp only [find?, still, Arena.get?_still, Option.map_map]
  rfl

theorem payload_still : h.still.payload x = (h.payload x).map Payload.still := by
  rw [payload_eq, payload_eq, find?_still]
  cases h.find? x <;> rfl

/-- A reading of one payload that does not look at the cursor. -/
theorem payload_bind_still {α : Type} {read : Payload → Except Error α} (same : ∀ p, read p.still = read p) :
    (h.still.payload x >>= read) = h.payload x >>= read := by
  rw [payload_still]
  cases h.payload x with
  | error _ => rfl
  | ok p => exact same p

@[simp] theorem tagOf_still : h.still.tagOf x = h.tagOf x := by
  simp only [tagOf, header, object, still, Arena.get?_still]
  cases h.arena.get? x <;> rfl

@[simp] theorem expectTag_still (expected : Tag) : h.still.expectTag x expected = h.expectTag x expected := by
  simp only [expectTag, tagOf_still]

@[simp] theorem intValue_still : h.still.intValue x = h.intValue x :=
  h.payload_bind_still x fun p => by cases p <;> rfl

@[simp] theorem strText_still : h.still.strText x = h.strText x :=
  h.payload_bind_still x fun p => by cases p <;> rfl

@[simp] theorem strEquals_still (text : String) : h.still.strEquals x text = h.strEquals x text :=
  h.payload_bind_still x fun p => by cases p <;> rfl

@[simp] theorem tupleItems_still : h.still.tupleItems x = h.tupleItems x :=
  h.payload_bind_still x fun p => by cases p <;> rfl

@[simp] theorem listRecord_still : h.still.listRecord x = h.listRecord x :=
  h.payload_bind_still x fun p => by cases p <;> rfl

@[simp] theorem dictRecord_still : h.still.dictRecord x = h.dictRecord x :=
  h.payload_bind_still x fun p => by cases p <;> rfl

@[simp] theorem sliceRecord_still : h.still.sliceRecord x = h.sliceRecord x :=
  h.payload_bind_still x fun p => by cases p <;> rfl

@[simp] theorem segmentRecord_still : h.still.segmentRecord x = h.segmentRecord x :=
  h.payload_bind_still x fun p => by cases p <;> rfl

theorem segListRecord_still : h.still.segListRecord x = (h.segListRecord x).map SegListRecord.still := by
  simp only [segListRecord, payload_still]
  cases h.payload x with
  | error _ => rfl
  | ok p => cases p <;> rfl

/-- What a record says but for the cursor. -/
theorem segListRecord_bind_still {α : Type} {read : SegListRecord → Except Error α} (same : ∀ r, read r.still = read r) :
    (h.still.segListRecord x >>= read) = h.segListRecord x >>= read := by
  rw [segListRecord_still]
  cases h.segListRecord x with
  | error _ => rfl
  | ok r => exact same r

@[simp] theorem segListLength_still : h.still.segListLength x = h.segListLength x :=
  h.segListRecord_bind_still x fun _ => rfl

/-! ### Readings of whole containers -/

@[simp] theorem chainItems_still (fuel : Nat) (seg : Option Handle) :
    h.still.chainItems fuel seg = h.chainItems fuel seg := by
  fun_induction h.chainItems fuel seg <;> simp_all [chainItems]

@[simp] theorem chainLength_still (fuel : Nat) (seg : Option Handle) :
    h.still.chainLength fuel seg = h.chainLength fuel seg := by
  fun_induction h.chainLength fuel seg <;> simp_all [chainLength]

@[simp] theorem size_still : h.still.arena.slots.size = h.arena.slots.size :=
  h.arena.size_still

@[simp] theorem segListItems_still : h.still.segListItems x = h.segListItems x := by
  rw [segListItems, segListRecord_bind_still]
  · simp only [segListItems, chainItems_still, size_still]
  · exact fun _ => rfl

@[simp] theorem segmentCount_still : h.still.segmentCount x = h.segmentCount x := by
  rw [segmentCount, segListRecord_bind_still]
  · simp only [segmentCount, chainLength_still, size_still]
  · exact fun _ => rfl

@[simp] theorem walk_still (n : Nat) (seg : Handle) : h.still.walk n seg = h.walk n seg := by
  induction n generalizing seg with
  | zero => rfl
  | succ n ih => simp only [walk, segmentRecord_still, ih]

@[simp] theorem seekFromHead_still (r : SegListRecord) (target : Nat) :
    h.still.seekFromHead r target = h.seekFromHead r target := by
  simp only [seekFromHead, walk_still]

@[simp] theorem listLength_still : h.still.listLength x = h.listLength x := by
  simp only [listLength, listRecord_still]

@[simp] theorem listItems_still : h.still.listItems x = h.listItems x := by
  simp only [listItems, listRecord_still, segListItems_still]

@[simp] theorem dictLength_still : h.still.dictLength x = h.dictLength x := by
  simp only [dictLength, dictRecord_still]

@[simp] theorem tupleLength_still : h.still.tupleLength x = h.tupleLength x := by
  simp only [tupleLength, tupleItems_still]

@[simp] theorem tupleElement_still (index : Int) : h.still.tupleElement x index = h.tupleElement x index := by
  simp only [tupleElement, tupleItems_still]

@[simp] theorem sequenceItems_still : h.still.sequenceItems x = h.sequenceItems x := by
  simp only [sequenceItems, segListItems_still]
  exact h.payload_bind_still x fun p => by cases p <;> rfl

@[simp] theorem sliceBound_still (bound : Option Handle) : h.still.sliceBound bound = h.sliceBound bound := by
  cases bound with
  | none => rfl
  | some x => simp only [sliceBound, tagOf_still]

@[simp] theorem sliceOf_still (start stop step : Option Handle) :
    h.still.sliceOf start stop step = h.sliceOf start stop step := by
  simp only [sliceOf, sliceBound_still, intValue_still]

@[simp] theorem boundValue_still (bound : Option Handle) (default : Int) :
    h.still.boundValue bound default = h.boundValue bound default := by
  simp only [boundValue, intValue_still]

@[simp] theorem sliceIndices_still (length : Nat) : h.still.sliceIndices x length = h.sliceIndices x length := by
  simp only [sliceIndices, sliceRecord_still, boundValue_still]

/-! ### Comparing and printing -/

theorem compareNode_still (a b : Handle) (sequences : List Handle → List Handle → Except Error Comparison) :
    compareWithin.compareNode h.still a b sequences = compareWithin.compareNode h a b sequences := by
  simp only [compareWithin.compareNode, segListItems_still]
  congr 1
  rw [payload_bind_still]
  · congr 1
    funext p
    exact h.payload_bind_still b fun q => by cases p <;> cases q <;> rfl
  · exact fun p => by cases p <;> rfl

@[simp] theorem compareWithin_still (depth : Nat) (a b : Handle) :
    h.still.compareWithin depth a b = h.compareWithin depth a b := by
  induction depth generalizing a b with
  | zero => simp only [compareWithin, compareNode_still]
  | succ depth ih =>
    have same : h.still.compareWithin depth = h.compareWithin depth := by
      funext a b
      exact ih a b
    simp only [compareWithin, compareNode_still, same]

@[simp] theorem compare_still (a b : Handle) : h.still.compare a b = h.compare a b :=
  h.compareWithin_still maxCompareDepth a b

end Heap

namespace Printing

variable {σ : Type}

theorem node_still (h : Heap) (sink : ByteSink σ) (nested : Bool) (element : Handle → SinkM σ Unit) (p : Payload) :
    node h.still sink nested element p.still = node h sink nested element p := by
  cases p <;> simp [node, Payload.still]

theorem value_still (h : Heap) (sink : ByteSink σ) (levels : Nat) (nested : Bool) (x : Handle) :
    value h.still sink levels nested x = value h sink levels nested x := by
  induction levels generalizing nested x with
  | zero => rfl
  | succ levels ih =>
    have inside : value h.still sink levels true = value h sink levels true := by
      funext y
      exact ih true y
    rw [value, value, inside, Heap.payload_still]
    cases h.payload x with
    | error _ => rfl
    | ok p => exact node_still h sink nested _ p

end Printing

namespace Heap

@[simp] theorem print_still {σ : Type} (h : Heap) (sink : ByteSink σ) (x : Handle) :
    h.still.print sink x = h.print sink x :=
  Printing.value_still h sink _ false x

@[simp] theorem printTagged_still {σ : Type} (h : Heap) (tag : Tag) (sink : ByteSink σ) (x : Handle) :
    h.still.printTagged tag sink x = h.printTagged tag sink x := by
  simp only [printTagged, expectTag_still, print_still]

@[simp] theorem render_still (h : Heap) (x : Handle) : h.still.render x = h.render x := by
  simp only [render, print_still]

end Heap

end ChunkHeap

import ChunkHeap.Proofs.Allocation
import ChunkHeap.SegList.Update
import Mathlib.Tactic.Tauto

/-!
# The heap as a map from handles to payloads

`Heap.find?` is the view of a heap through which everything about containers is
said. Replacing a payload, entering, releasing and collecting each have one
lemma that gives the view after it. `Heap.Edited` collects what stays the same
when payloads are replaced by others of the same kind, however many.
-/

namespace ChunkHeap
set_option autoImplicit false

namespace Heap

variable {h g k : Heap} {x y : Handle} {p q : Payload}

/-- What a live object holds. -/
def find? (h : Heap) (x : Handle) : Option Payload :=
  (h.arena.get? x).map Object.payload

theorem find?_eq_some_iff : h.find? x = some p ↔ ∃ o, h.arena.get? x = some o ∧ o.payload = p := by
  simp [find?]

theorem isLive_iff_find? : h.isLive x = true ↔ ∃ p, h.find? x = some p := by
  simp only [isLive_iff, find?_eq_some_iff]
  exact ⟨fun ⟨o, found⟩ => ⟨_, o, found, rfl⟩, fun ⟨_, o, found, _⟩ => ⟨o, found⟩⟩

section Release

variable {o : Object} {arena : Arena} (removed : h.arena.remove x = some (o, arena))
include removed

/-- What is released was live. -/
theorem find?_released : h.find? x = some o.payload :=
  find?_eq_some_iff.2 ⟨o, (Arena.remove_eq_some_iff.1 removed).1, rfl⟩

/-- A release frees one slot and touches no other. -/
theorem find?_release (bytes : Nat) (y : Handle) :
    { h with arena := arena, bytesInUse := bytes }.find? y = if x = y then none else h.find? y := by
  rw [find?, release_get? removed]
  split <;> rfl

end Release

/-! ### Readers -/

theorem payload_eq (h : Heap) (x : Handle) :
    h.payload x = match h.find? x with
      | some p => .ok p
      | none => .error .dangling := by
  unfold payload object find?
  cases h.arena.get? x <;> rfl

theorem payload_ok (found : h.find? x = some p) : h.payload x = .ok p := by
  rw [payload_eq, found]

theorem segmentRecord_ok {r : SegmentRecord} (found : h.find? x = some (.segment r)) : h.segmentRecord x = .ok r := by
  rw [segmentRecord, payload_ok found]
  rfl

theorem segListRecord_ok {r : SegListRecord} (found : h.find? x = some (.seglist r)) : h.segListRecord x = .ok r := by
  rw [segListRecord, payload_ok found]
  rfl

theorem segListLength_ok {r : SegListRecord} (found : h.find? x = some (.seglist r)) : h.segListLength x = .ok r.length := by
  rw [segListLength, segListRecord_ok found]
  rfl

theorem payload_eq_ok_iff : h.payload x = .ok p ↔ h.find? x = some p := by
  rw [payload_eq]
  cases h.find? x <;> simp

theorem segListRecord_eq_ok_iff {r : SegListRecord} : h.segListRecord x = .ok r ↔ h.find? x = some (.seglist r) := by
  rw [segListRecord, ← payload_eq_ok_iff]
  rcases h.payload x with _ | _ | _ <;> simp [bind, Except.bind]

theorem segmentRecord_eq_ok_iff {r : SegmentRecord} : h.segmentRecord x = .ok r ↔ h.find? x = some (.segment r) := by
  rw [segmentRecord, ← payload_eq_ok_iff]
  rcases h.payload x with _ | _ | _ <;> simp [bind, Except.bind]

theorem listRecord_eq_ok_iff {r : ListRecord} : h.listRecord x = .ok r ↔ h.find? x = some (.list r) := by
  rw [listRecord, ← payload_eq_ok_iff]
  rcases h.payload x with _ | _ | _ <;> simp [bind, Except.bind]

theorem tupleItems_eq_ok_iff {items : List Handle} : h.tupleItems x = .ok items ↔ h.find? x = some (.tuple items) := by
  rw [tupleItems, ← payload_eq_ok_iff]
  rcases h.payload x with _ | _ | _ <;> simp [bind, Except.bind]

theorem functionRecord_eq_ok_iff {r : FunctionRecord} : h.functionRecord x = .ok r ↔ h.find? x = some (.function r) := by
  rw [functionRecord, ← payload_eq_ok_iff]
  rcases h.payload x with _ | _ | _ <;> simp [bind, Except.bind]

theorem methodRecord_eq_ok_iff {r : MethodRecord} : h.methodRecord x = .ok r ↔ h.find? x = some (.method r) := by
  rw [methodRecord, ← payload_eq_ok_iff]
  rcases h.payload x with _ | _ | _ <;> simp [bind, Except.bind]

theorem sliceRecord_eq_ok_iff {r : SliceRecord} : h.sliceRecord x = .ok r ↔ h.find? x = some (.slice r) := by
  rw [sliceRecord, ← payload_eq_ok_iff]
  rcases h.payload x with _ | _ | _ <;> simp [bind, Except.bind]

theorem classRecord_eq_ok_iff {r : ClassRecord} :
    h.classRecord x = .ok r ↔ h.find? x = some (.cls r) ∨ h.find? x = some (.inst r) := by
  rw [classRecord, ← payload_eq_ok_iff, ← payload_eq_ok_iff]
  rcases h.payload x with _ | _ | _ <;> simp [bind, Except.bind]

theorem templateRecord_eq_ok_iff {r : ClassRecord} : h.templateRecord x = .ok r ↔ h.find? x = some (.cls r) := by
  rw [templateRecord, ← payload_eq_ok_iff]
  rcases h.payload x with _ | _ | _ <;> simp [bind, Except.bind]

theorem dictRecord_eq_ok_iff {r : DictRecord} : h.dictRecord x = .ok r ↔ h.find? x = some (.dict r) := by
  rw [dictRecord, ← payload_eq_ok_iff]
  rcases h.payload x with _ | _ | _ <;> simp [bind, Except.bind]

/-! ### What the primitives do to the view -/

theorem find?_setPayload (h : Heap) (x : Handle) (p : Payload) (y : Handle) :
    (h.setPayload x p).find? y = if x = y then (h.find? y).map fun _ => p else h.find? y := by
  simp only [find?, setPayload, Arena.setPayload, Arena.get?_update]
  split
  · cases h.arena.get? y <;> rfl
  · rfl

theorem find?_setPayload_self (found : h.find? x = some p) (q : Payload) : (h.setPayload x q).find? x = some q := by
  rw [find?_setPayload, if_pos rfl, found]
  rfl

theorem find?_setPayload_other (different : y ≠ x) (q : Payload) : (h.setPayload x q).find? y = h.find? y := by
  rw [find?_setPayload, if_neg fun same => different same.symm]

theorem find?_place (ok : h.arena.Consistent) (p : Payload) (y : Handle) :
    (h.place p).2.find? y = if (h.place p).1 = y then some p else h.find? y := by
  rw [find?, place_get? ok]
  split <;> rfl

theorem find?_place_fresh (ok : h.arena.Consistent) (p : Payload) : h.find? (h.place p).1 = none := by
  rw [find?, place_fresh ok]
  rfl

theorem find?_collectWith (ok : h.arena.Consistent) {pins : List Handle} :
    (h.collectWith pins).heap.find? x = some p ↔
      h.find? x = some p ∧ h.arena.Reaches (h.collectionRoots pins) x := by
  simp only [find?_eq_some_iff, collectWith_get? ok]
  constructor
  · rintro ⟨_, ⟨o, found, reached, rfl⟩, rfl⟩
    exact ⟨⟨o, found, rfl⟩, reached⟩
  · rintro ⟨⟨o, found, rfl⟩, reached⟩
    exact ⟨_, ⟨o, found, reached, rfl⟩, rfl⟩

theorem reaches_edge {starts : List Handle} (reached : h.arena.Reaches starts x) (found : h.find? x = some p)
    (child : y ∈ p.children) : h.arena.Reaches starts y := by
  obtain ⟨o, live, rfl⟩ := find?_eq_some_iff.1 found
  exact .edge reached live child

theorem reaches_trans {starts more : List Handle} (each : ∀ x ∈ starts, h.arena.Reaches more x)
    (reached : h.arena.Reaches starts y) : h.arena.Reaches more y := by
  induction reached with
  | start member => exact each _ member
  | edge _ found child ih => exact .edge ih found child

theorem reaches_mono {starts more : List Handle} (subset : starts ⊆ more) (reached : h.arena.Reaches starts x) :
    h.arena.Reaches more x :=
  reaches_trans (fun _ member => .start (subset member)) reached

/-- Paths last when the objects on them keep their edges. -/
theorem reaches_of_children {starts : List Handle}
    (kept : ∀ z p, h.arena.Reaches starts z → h.find? z = some p → ∃ q, g.find? z = some q ∧ p.children ⊆ q.children)
    (reached : h.arena.Reaches starts y) : g.arena.Reaches starts y := by
  induction reached with
  | start member => exact .start member
  | edge before found edge ih =>
    obtain ⟨q, live, wider⟩ := kept _ _ before (find?_eq_some_iff.2 ⟨_, found, rfl⟩)
    exact reaches_edge ih live (wider edge)

/-- The object is one that the roots of the heap lead to. -/
def Rooted (h : Heap) (x : Handle) : Prop :=
  h.arena.Reaches (h.collectionRoots []) x

theorem Rooted.collected (rooted : h.Rooted x) (pins : List Handle) :
    h.arena.Reaches (h.collectionRoots pins) x := by
  refine reaches_mono ?_ rooted
  intro y member
  simp only [collectionRoots, List.mem_append] at member ⊢
  tauto

/-! ### What operations on containers keep -/

/-- Every header fits the payload beside it. -/
def Headed (h : Heap) : Prop :=
  ∀ x o, h.arena.get? x = some o → o.header.tag = o.payload.tag ∧ o.header.chunkBytes = o.payload.chunkBytes

/-- A header that fits tells the kind of the payload. -/
theorem Headed.tagOf_eq (headed : h.Headed) (x : Handle) : h.tagOf x = (h.payload x).map Payload.tag := by
  simp only [tagOf, header, payload, object]
  cases live : h.arena.get? x with
  | none => rfl
  | some o => simp [Except.map, (headed x o live).1]

theorem Headed.expectTag_eq_ok_iff (headed : h.Headed) {tag : Tag} :
    h.expectTag x tag = .ok () ↔ ∃ p, h.find? x = some p ∧ p.tag = tag := by
  simp only [expectTag, headed.tagOf_eq, ← payload_eq_ok_iff]
  cases h.payload x with
  | error e => simp [Except.map, bind, Except.bind]
  | ok p =>
    simp only [Except.map, bind, Except.bind, Except.ok.injEq, exists_eq_left']
    split <;> simp_all

/-- From `h` to `g` the roots and settings stay, and sound accounts and headers
stay sound. -/
structure Upkeep (h g : Heap) : Prop where
  roots : g.roots = h.roots
  config : g.config = h.config
  constants : g.constants = h.constants
  accounted : h.Accounted → g.Accounted
  headed : h.Headed → g.Headed

namespace Upkeep

theorem refl (h : Heap) : Upkeep h h :=
  ⟨rfl, rfl, rfl, id, id⟩

theorem trans (first : Upkeep h g) (second : Upkeep g k) : Upkeep h k where
  roots := second.roots.trans first.roots
  config := second.config.trans first.config
  constants := second.constants.trans first.constants
  accounted := fun ok => second.accounted (first.accounted ok)
  headed := fun ok => second.headed (first.headed ok)

theorem collectionRoots (kept : Upkeep h g) (pins : List Handle) : g.collectionRoots pins = h.collectionRoots pins := by
  rw [Heap.collectionRoots, kept.roots, kept.constants]
  rfl

theorem roots_subset (kept : Upkeep h g) : h.collectionRoots [] ⊆ g.collectionRoots [] := by
  rw [kept.collectionRoots]
  exact List.Subset.refl _

end Upkeep

theorem upkeep_collectWith (ok : h.Accounted) (pins : List Handle) : Upkeep h (h.collectWith pins).heap where
  roots := by rw [collectWith_heap]
  config := by rw [collectWith_heap]
  constants := by rw [collectWith_heap]
  accounted := fun _ => (ok.collectWith pins).1
  headed := by
    intro headed x o found
    obtain ⟨before, here, -, rfl⟩ := (collectWith_get? ok.arena).1 found
    exact headed x before here

/-- Upkeep without a collection. -/
structure Steady (h g : Heap) : Prop extends Upkeep h g where
  collections : g.collections = h.collections

theorem Steady.refl (h : Heap) : Steady h h :=
  ⟨Upkeep.refl h, rfl⟩

theorem Steady.trans (first : Steady h g) (second : Steady g k) : Steady h k :=
  ⟨first.toUpkeep.trans second.toUpkeep, second.collections.trans first.collections⟩

theorem steady_place (ok : h.Accounted) (p : Payload) : Steady h (h.place p).2 where
  roots := rfl
  config := rfl
  constants := rfl
  collections := rfl
  accounted := fun ok => ok.place p
  headed := by
    intro headed x o found
    rw [place_get? ok.arena] at found
    split at found
    · cases found
      exact ⟨rfl, rfl⟩
    · exact headed x o found

/-! ### Replacing payloads by others of the same kind -/

/-- `g` is `h` with payloads replaced by others of the same kind and size, for
objects of `S` only. -/
structure Edited (S : Handle → Prop) (h g : Heap) : Prop extends Steady h g where
  live : ∀ x, g.find? x = none ↔ h.find? x = none
  outside : ∀ x, ¬ S x → g.find? x = h.find? x

namespace Edited

variable {S T : Handle → Prop}

theorem refl (S : Handle → Prop) (h : Heap) : Edited S h h :=
  { Steady.refl h with live := fun _ => Iff.rfl, outside := fun _ _ => rfl }

theorem trans (first : Edited S h g) (second : Edited S g k) : Edited S h k :=
  { first.toSteady.trans second.toSteady with
    live := fun x => (second.live x).trans (first.live x)
    outside := fun x away => (second.outside x away).trans (first.outside x away) }

theorem mono (edited : Edited S h g) (wider : ∀ x, S x → T x) : Edited T h g :=
  { edited with outside := fun x away => edited.outside x fun inside => away (wider x inside) }

end Edited

theorem edited_setPayload (found : h.find? x = some p) (tag : q.tag = p.tag) (bytes : q.chunkBytes = p.chunkBytes) :
    Edited (· = x) h (h.setPayload x q) where
  roots := rfl
  config := rfl
  constants := rfl
  collections := rfl
  accounted := fun ok => ok.setPayload x q
  headed := by
    intro headed y o after
    rw [setPayload, Arena.setPayload, Arena.get?_update] at after
    split at after
    · rename_i same
      subst same
      obtain ⟨before, here, rfl⟩ := Option.map_eq_some_iff.1 after
      obtain ⟨b, there, rfl⟩ := find?_eq_some_iff.1 found
      obtain rfl : b = before := Option.some.inj (there.symm.trans here)
      rw [tag, bytes]
      exact headed x b here
    · exact headed y o after
  live := by
    intro y
    rw [find?_setPayload]
    split
    · exact Option.map_eq_none_iff
    · rfl
  outside := fun y away => find?_setPayload_other away q

theorem edited_segment {r : SegmentRecord} (s : SegmentRecord) (found : h.find? x = some (.segment r)) :
    Edited (· = x) h (h.setPayload x (.segment s)) :=
  edited_setPayload found rfl rfl

theorem edited_seglist {r : SegListRecord} (s : SegListRecord) (found : h.find? x = some (.seglist r)) :
    Edited (· = x) h (h.setPayload x (.seglist s)) :=
  edited_setPayload found rfl rfl

end Heap

/-! ### Edits by operations -/

/-- The machine with a payload replaced. -/
def Machine.put (m : Machine) (x : Handle) (p : Payload) : Machine :=
  { m with heap := m.heap.setPayload x p }

@[simp] theorem Machine.put_heap (m : Machine) (x : Handle) (p : Payload) :
    (m.put x p).heap = m.heap.setPayload x p := rfl

namespace HeapM

theorem run_inspect_ok {α : Type} {f : Heap → Except Error α} {m : Machine} {a : α} (read : f m.heap = .ok a) :
    (inspect f).run m = (.ok a, m) := by
  rw [run_inspect, read]

end HeapM

namespace SegList

open HeapM Heap

variable {m : Machine} {x : Handle}

theorem run_modifySegment {r : SegmentRecord} (f : SegmentRecord → SegmentRecord)
    (found : m.heap.find? x = some (.segment r)) :
    (modifySegment x f).run m = (.ok (), m.put x (.segment (f r))) := by
  rw [modifySegment, run_bind_ok (run_inspect_ok (segmentRecord_ok found)), run_modify]
  rfl

theorem run_modifyRecord {r : SegListRecord} (f : SegListRecord → SegListRecord)
    (found : m.heap.find? x = some (.seglist r)) :
    (modifyRecord x f).run m = (.ok (), m.put x (.seglist (f r))) := by
  rw [modifyRecord, run_bind_ok (run_inspect_ok (segListRecord_ok found)), run_modify]
  rfl

/-- Writing a segment changes that segment only. -/
theorem modifySegment_spec {r : SegmentRecord} (f : SegmentRecord → SegmentRecord)
    (found : m.heap.find? x = some (.segment r)) :
    ∃ m', (modifySegment x f).run m = (.ok (), m') ∧ Edited (· = x) m.heap m'.heap ∧
      m'.heap.find? x = some (.segment (f r)) :=
  ⟨_, run_modifySegment f found, edited_segment _ found, find?_setPayload_self found _⟩

/-- Writing the record of a list changes that list only. -/
theorem modifyRecord_spec {r : SegListRecord} (f : SegListRecord → SegListRecord)
    (found : m.heap.find? x = some (.seglist r)) :
    ∃ m', (modifyRecord x f).run m = (.ok (), m') ∧ Edited (· = x) m.heap m'.heap ∧
      m'.heap.find? x = some (.seglist (f r)) :=
  ⟨_, run_modifyRecord f found, edited_seglist _ found, find?_setPayload_self found _⟩

end SegList

/-! ### Making room, entering and releasing -/

namespace Heap

variable {h g : Heap} {x y : Handle} {p : Payload} {pins : List Handle}

/-- An allocation that pins `pins` may have collected on the way from `h` to `g`. -/
def Swept (pins : List Handle) (h g : Heap) : Prop :=
  g = h ∨ g = (h.collectWith pins).heap

theorem Swept.upkeep (swept : Swept pins h g) (ok : h.Accounted) : Upkeep h g := by
  rcases swept with rfl | rfl
  · exact Upkeep.refl g
  · exact upkeep_collectWith ok pins

/-- What was there before is still there if the roots or the pins lead to it. -/
theorem Swept.find? (swept : Swept pins h g) (ok : h.Accounted) (reached : h.arena.Reaches (h.collectionRoots pins) x) :
    g.find? x = h.find? x := by
  rcases swept with rfl | rfl
  · rfl
  · refine Option.ext fun p => ?_
    rw [find?_collectWith ok.arena]
    exact and_iff_left reached

/-- Nothing comes to life. -/
theorem Swept.of_find? (swept : Swept pins h g) (ok : h.Accounted) (found : g.find? x = some p) :
    h.find? x = some p := by
  rcases swept with rfl | rfl
  · exact found
  · exact ((find?_collectWith ok.arena).1 found).1

/-- A chunk of `size` bytes is within the limit for chunks and within the budget. -/
def Admits (h : Heap) (size : Nat) : Prop :=
  size ≤ h.config.maxChunkBytes ∧ h.fits size = true

theorem Admits.mono {small size : Nat} (admits : h.Admits size) (less : small ≤ size) : h.Admits small := by
  refine ⟨Nat.le_trans less admits.1, ?_⟩
  have within := admits.2
  simp only [fits, decide_eq_true_eq] at within ⊢
  omega

/-- From `g` to `k` a new object `x` that holds `p` has been entered. -/
structure Entered (x : Handle) (p : Payload) (g k : Heap) : Prop extends Steady g k where
  fresh : g.find? x = none
  view : ∀ y, k.find? y = if x = y then some p else g.find? y

theorem entered_place (ok : g.Accounted) (p : Payload) : Entered (g.place p).1 p g (g.place p).2 :=
  { steady_place ok p with
    fresh := find?_place_fresh ok.arena p
    view := find?_place ok.arena p }

theorem Entered.here (entered : Entered x p h g) : g.find? x = some p := by
  rw [entered.view, if_pos rfl]

theorem Entered.other (entered : Entered x p h g) (different : y ≠ x) : g.find? y = h.find? y := by
  rw [entered.view, if_neg different.symm]

/-- What was live before is another object, and still there. -/
theorem Entered.live {q : Payload} (entered : Entered x p h g) (found : h.find? y = some q) :
    y ≠ x ∧ g.find? y = some q := by
  have different : y ≠ x := by
    rintro rfl
    rw [entered.fresh] at found
    cases found
  exact ⟨different, (entered.other different).trans found⟩

end Heap

namespace HeapM

open Heap

variable {m : Machine} {x : Handle}

/-- An allocation either finds no room and fails for want of memory, or enters the
object; either way it may have collected before. -/
theorem allocatePinned_spec (p : Payload) (pins : List Handle) (ok : m.heap.Accounted) :
    ∃ g, Swept (pins ++ p.children) m.heap g ∧
      ((∃ e m', (allocatePinned p pins).run m = (.error e, m') ∧ e.kind = .memory ∧ m'.heap = g ∧
          ¬ g.Admits p.chunkBytes) ∨
        ∃ x m', (allocatePinned p pins).run m = (.ok x, m') ∧ Entered x p g m'.heap) := by
  obtain ⟨log, outcome⟩ := run_allocatePinned p pins m
  split at outcome
  · rename_i large
    exact ⟨m.heap, .inl rfl, .inl ⟨_, _, outcome, rfl, rfl, fun admits => Nat.not_lt.2 admits.1 large⟩⟩
  · refine ⟨m.heap.room p.chunkBytes (pins ++ p.children), room_cases m.heap p.chunkBytes _, ?_⟩
    split at outcome
    · exact .inr ⟨_, _, outcome, entered_place (ok.room _ _) p⟩
    · rename_i refused
      exact .inl ⟨_, _, outcome, rfl, rfl, fun admits => refused admits.2⟩

/-- Releasing a live chunk frees its slot and touches no other. -/
theorem freeChunk_live {p : Payload} (found : m.heap.find? x = some p) :
    ∃ m', (freeChunk x).run m = (.ok (), m') ∧ Steady m.heap m'.heap ∧
      ∀ y, m'.heap.find? y = if x = y then none else m.heap.find? y := by
  obtain ⟨o, live, -⟩ := find?_eq_some_iff.1 found
  obtain ⟨log, outcome⟩ := run_freeChunk x m
  cases removed : m.heap.arena.remove x with
  | none =>
    rw [Arena.remove_eq_none_iff, live] at removed
    cases removed
  | some e =>
    obtain ⟨freed, arena⟩ := e
    rw [removed] at outcome
    refine ⟨_, outcome, ⟨⟨rfl, rfl, rfl, fun ok => ok.release removed, ?_⟩, rfl⟩, ?_⟩
    · intro headed y o there
      rw [release_get? removed] at there
      split at there
      · cases there
      · exact headed y o there
    · exact find?_release removed _

end HeapM

end ChunkHeap

import ChunkHeap.Machine
import ChunkHeap.Proofs.Collector.Exact

/-!
# What an allocation does

`run_allocatePinned` gives the outcome of an allocation and the heap it leaves in
terms of two functions of heaps: `Heap.room`, which collects if the settings and
the budget ask for it, and `Heap.place`, which enters the object. What is
reported on the way does not matter here and is left open.
-/

namespace ChunkHeap
set_option autoImplicit false

namespace Heap

/-- The heap after making room for `size` bytes. -/
def room (h : Heap) (size : Nat) (pins : List Handle) : Heap :=
  if !h.fits size && h.config.collectOnExhaustion then (h.collectWith pins).heap else h

/-- A new object as the arena keeps it. -/
def newObject (p : Payload) : Object :=
  { header := { tag := p.tag, chunkBytes := p.chunkBytes }, payload := p }

/-- Enter an object, whether or not it fits. -/
def place (h : Heap) (p : Payload) : Handle × Heap :=
  ((h.arena.insert (newObject p)).1,
    { h with arena := (h.arena.insert (newObject p)).2, bytesInUse := h.bytesInUse + p.chunkBytes })

/-- Making room collects or does nothing. -/
theorem room_cases (h : Heap) (size : Nat) (pins : List Handle) :
    h.room size pins = h ∨ h.room size pins = (h.collectWith pins).heap := by
  unfold room
  split
  · exact .inr rfl
  · exact .inl rfl

@[simp] theorem room_roots (h : Heap) (size : Nat) (pins : List Handle) : (h.room size pins).roots = h.roots := by
  obtain same | same := h.room_cases size pins
  · rw [same]
  · rw [same, collectWith_heap]

@[simp] theorem room_config (h : Heap) (size : Nat) (pins : List Handle) : (h.room size pins).config = h.config := by
  obtain same | same := h.room_cases size pins
  · rw [same]
  · rw [same, collectWith_heap]

@[simp] theorem room_constants (h : Heap) (size : Nat) (pins : List Handle) :
    (h.room size pins).constants = h.constants := by
  obtain same | same := h.room_cases size pins
  · rw [same]
  · rw [same, collectWith_heap]

theorem Accounted.room {h : Heap} (ok : h.Accounted) (size : Nat) (pins : List Handle) :
    (h.room size pins).Accounted := by
  obtain same | same := h.room_cases size pins
  · rw [same]
    exact ok
  · rw [same]
    exact (ok.collectWith pins).1

theorem Accounted.place {h : Heap} (ok : h.Accounted) (p : Payload) : (h.place p).2.Accounted where
  arena := ok.arena.insert _
  bytes := by
    have total : (h.arena.insert (newObject p)).2.chunkTotal = h.arena.chunkTotal + p.chunkBytes :=
      Arena.weight_insert _ _ fun _ head => ok.arena.head_free head
    show h.bytesInUse + p.chunkBytes = (h.arena.insert (newObject p)).2.chunkTotal
    rw [total, ok.bytes]

/-- Payloads do not enter the accounts, only headers do. -/
theorem Accounted.adjust {h : Heap} (ok : h.Accounted) {f : Handle → Object → Object}
    (header : ∀ y o, (f y o).header = o.header) : { h with arena := h.arena.adjust f }.Accounted where
  arena := ok.arena.adjust f
  bytes := by
    have same : (h.arena.adjust f).chunkTotal = h.arena.chunkTotal :=
      Arena.weight_adjust _ _ fun y o => by rw [header]
    exact ok.bytes.trans same.symm

theorem Accounted.setPayload {h : Heap} (ok : h.Accounted) (x : Handle) (p : Payload) :
    (h.setPayload x p).Accounted := by
  rw [Heap.setPayload, Arena.setPayload, Arena.update_eq_adjust]
  refine ok.adjust ?_
  intro y o
  split <;> rfl

theorem Accounted.release {h : Heap} (ok : h.Accounted) {x : Handle} {o : Object} {arena : Arena}
    (removed : h.arena.remove x = some (o, arena)) :
    { h with arena := arena, bytesInUse := h.bytesInUse - o.header.chunkBytes }.Accounted where
  arena := ok.arena.remove removed
  bytes := by
    have lighter : arena.chunkTotal + o.header.chunkBytes = h.arena.chunkTotal := Arena.weight_remove _ removed
    show h.bytesInUse - o.header.chunkBytes = arena.chunkTotal
    rw [ok.bytes]
    omega

theorem release_get? {h : Heap} {x : Handle} {o : Object} {arena : Arena}
    (removed : h.arena.remove x = some (o, arena)) (y : Handle) :
    arena.get? y = if x = y then none else h.arena.get? y := by
  by_cases same : x = y
  · rw [if_pos same, ← same, Arena.get?_remove_self removed]
  · rw [if_neg same, Arena.get?_remove_other removed same]

/-- A new object goes where no object was, and only there. -/
theorem place_fresh {h : Heap} (ok : h.arena.Consistent) (p : Payload) : h.arena.get? (h.place p).1 = none := by
  unfold place Arena.insert
  cases head : h.arena.freeHead with
  | none => simp [Arena.get?]
  | some i =>
    obtain ⟨next, free⟩ := ok.head_free head
    simp [Arena.get?, free]

theorem place_get? {h : Heap} (ok : h.arena.Consistent) (p : Payload) (y : Handle) :
    (h.place p).2.arena.get? y = if (h.place p).1 = y then some (newObject p) else h.arena.get? y := by
  by_cases same : (h.place p).1 = y
  · rw [if_pos same, ← same]
    exact Arena.get?_insert_self _ _ ok.head_lt
  · rw [if_neg same]
    exact Arena.get?_insert_other same

end Heap

/-- The machine with its roots changed. -/
def Machine.mapRoots (m : Machine) (f : RootSet → RootSet) : Machine :=
  { m with heap := { m.heap with roots := f m.heap.roots } }

namespace HeapM

theorem run_modifyRoots (f : RootSet → RootSet) (m : Machine) : (modifyRoots f).run m = (.ok (), m.mapRoots f) := rfl

/-- A construction runs its body between entering and leaving. -/
theorem run_guarded {α : Type} (body : HeapM α) (m : Machine) :
    (guarded body).run m = ((body.run (m.mapRoots RootSet.enter)).1,
      (body.run (m.mapRoots RootSet.enter)).2.mapRoots fun r => r.leave m.heap.roots.inFlight.length) := rfl

/-- The outcome of an allocation and the heap it leaves. -/
theorem run_allocatePinned (p : Payload) (pins : List Handle) (m : Machine) :
    ∃ log, (allocatePinned p pins).run m =
      if m.heap.config.maxChunkBytes < p.chunkBytes then (.error .oversized, ⟨m.heap, log⟩)
      else if (m.heap.room p.chunkBytes (pins ++ p.children)).fits p.chunkBytes then
        (.ok ((m.heap.room p.chunkBytes (pins ++ p.children)).place p).1,
          ⟨((m.heap.room p.chunkBytes (pins ++ p.children)).place p).2, log⟩)
      else (.error .exhausted, ⟨m.heap.room p.chunkBytes (pins ++ p.children), log⟩) := by
  by_cases large : m.heap.config.maxChunkBytes < p.chunkBytes
  · refine ⟨m.log.push (.outOfMemory p.chunkBytes m.heap.bytesFree), ?_⟩
    rw [if_pos large]
    simp only [allocatePinned, run_bind, run_heap, large, if_true]
    rfl
  · -- room is made first, and what it reports is part of the log from then on
    have made : ∃ log, (makeRoom p.chunkBytes (pins ++ p.children)).run m =
        (.ok (), ⟨m.heap.room p.chunkBytes (pins ++ p.children), log⟩) := by
      by_cases collects : (!m.heap.fits p.chunkBytes && m.heap.config.collectOnExhaustion) = true
      · refine ⟨m.log ++ (m.heap.collectWith (pins ++ p.children)).events.toArray, ?_⟩
        simp only [makeRoom, run_bind, run_heap, collects, if_true, Heap.room]
        rfl
      · refine ⟨m.log, ?_⟩
        simp only [makeRoom, run_bind, run_heap, collects, Heap.room]
        rfl
    obtain ⟨log, made⟩ := made
    by_cases fits : (m.heap.room p.chunkBytes (pins ++ p.children)).fits p.chunkBytes = true
    · refine ⟨log.push (.allocated p.tag
        ((m.heap.room p.chunkBytes (pins ++ p.children)).place p).1.slot p.chunkBytes), ?_⟩
      simp only [allocatePinned, run_bind, run_heap, large, if_false, made, installFitting, fits, if_true]
      rfl
    · refine ⟨log.push (.outOfMemory p.chunkBytes
        (m.heap.room p.chunkBytes (pins ++ p.children)).bytesFree), ?_⟩
      simp only [allocatePinned, run_bind, run_heap, large, if_false, made, installFitting, fits]
      rfl

/-- The outcome of a release and the heap it leaves. -/
theorem run_freeChunk (x : Handle) (m : Machine) :
    ∃ log, (freeChunk x).run m =
      match m.heap.arena.remove x with
      | none => (.error .danglingFree, ⟨m.heap, log⟩)
      | some (o, arena) =>
        (.ok (), ⟨{ m.heap with arena := arena, bytesInUse := m.heap.bytesInUse - o.header.chunkBytes }, log⟩) := by
  cases removed : m.heap.arena.remove x with
  | none => exact ⟨m.log, by simp only [run, freeChunk, removed]⟩
  | some e => exact ⟨m.log.push (.released x.slot e.1.header.chunkBytes), by simp only [run, freeChunk, removed]⟩

end HeapM

end ChunkHeap

import ChunkHeap.Heap.Collect

/-!
# Heap operations

An operation takes a machine, a heap with its log, to an outcome and the machine
it leaves behind. The machine is there also when the operation fails: an
allocation that failed may have collected, and an operation that failed half way
has done its first half.

The primitives are reading the heap (`HeapM.inspect`), changing it
(`HeapM.modify`), reporting (`HeapM.emit`), collecting, allocating and releasing a
chunk, and `HeapM.guarded`, which ends a construction on every exit.
-/

namespace ChunkHeap
set_option autoImplicit false

/-- A heap and what has been reported about it. -/
structure Machine where
  heap : Heap
  log : Array Event := #[]

/-- An operation on a machine. -/
def HeapM (α : Type) : Type :=
  Machine → Except Error α × Machine

namespace HeapM

variable {α β : Type}

/-- Run an operation. -/
def run (op : HeapM α) (m : Machine) : Except Error α × Machine :=
  op m

instance : Monad HeapM where
  pure a := fun m => (.ok a, m)
  bind op f := fun m =>
    match op m with
    | (.ok a, m') => f a m'
    | (.error e, m') => (.error e, m')

/-- Fail, leaving the machine as it is. -/
def fail (e : Error) : HeapM α :=
  fun m => (.error e, m)

/-- Run an operation; if it fails, go on with `handler` from the machine it left. -/
def recover (op : HeapM α) (handler : Error → HeapM α) : HeapM α := fun m =>
  match op m with
  | (.ok a, m') => (.ok a, m')
  | (.error e, m') => handler e m'

instance : MonadExceptOf Error HeapM where
  throw := fail
  tryCatch := recover

@[simp] theorem run_pure (a : α) (m : Machine) : (pure a : HeapM α).run m = (.ok a, m) := rfl

@[simp] theorem run_fail (e : Error) (m : Machine) : (fail e : HeapM α).run m = (.error e, m) := rfl

theorem run_bind (op : HeapM α) (f : α → HeapM β) (m : Machine) :
    (op >>= f).run m =
      match op.run m with
      | (.ok a, m') => (f a).run m'
      | (.error e, m') => (.error e, m') := rfl

theorem run_bind_ok {op : HeapM α} {f : α → HeapM β} {m m' : Machine} {a : α}
    (h : op.run m = (.ok a, m')) : (op >>= f).run m = (f a).run m' := by
  rw [run_bind, h]

theorem run_bind_error {op : HeapM α} {f : α → HeapM β} {m m' : Machine} {e : Error}
    (h : op.run m = (.error e, m')) : (op >>= f).run m = (.error e, m') := by
  rw [run_bind, h]

instance : LawfulMonad HeapM :=
  LawfulMonad.mk' HeapM
    (fun op => funext fun m => by
      show (match op m with
        | (.ok a, m') => ((.ok a, m') : Except Error _ × Machine)
        | (.error e, m') => (.error e, m')) = op m
      rcases op m with ⟨_ | _, _⟩ <;> rfl)
    (fun _ _ => rfl)
    (fun op f g => funext fun m => by
      rw [show (op >>= f >>= g) m = ((op >>= f >>= g).run m) from rfl,
        show (op >>= fun a => f a >>= g) m = ((op >>= fun a => f a >>= g).run m) from rfl]
      simp only [run_bind]
      rcases op.run m with ⟨_ | _, _⟩ <;> rfl)

/-- The heap as it is now. -/
def heap : HeapM Heap :=
  fun m => (.ok m.heap, m)

/-- Read from the heap; the reading may fail and changes nothing. -/
def inspect (f : Heap → Except Error α) : HeapM α :=
  fun m => (f m.heap, m)

/-- Change the heap. -/
def modify (f : Heap → Heap) : HeapM Unit :=
  fun m => (.ok (), { m with heap := f m.heap })

/-- Report an event. -/
def emit (e : Event) : HeapM Unit :=
  fun m => (.ok (), { m with log := m.log.push e })

@[simp] theorem run_heap (m : Machine) : heap.run m = (.ok m.heap, m) := rfl

@[simp] theorem run_inspect (f : Heap → Except Error α) (m : Machine) :
    (inspect f).run m = (f m.heap, m) := rfl

@[simp] theorem run_modify (f : Heap → Heap) (m : Machine) :
    (modify f).run m = (.ok (), { m with heap := f m.heap }) := rfl

@[simp] theorem run_emit (e : Event) (m : Machine) :
    (emit e).run m = (.ok (), { m with log := m.log.push e }) := rfl

/-- Run an operation `n` times, stopping at the first failure. -/
def times : (n : Nat) → HeapM Unit → HeapM Unit
  | 0, _ => pure ()
  | n + 1, op => do
    op
    times n op

/-- Run an operation on each element of a list, in order. -/
def forEach {γ : Type} (op : γ → HeapM Unit) : List γ → HeapM Unit
  | [] => pure ()
  | x :: xs => do
    op x
    forEach op xs

/-! ### Roots and constructions -/

/-- Change the roots. -/
def modifyRoots (f : RootSet → RootSet) : HeapM Unit :=
  modify fun h => { h with roots := f h.roots }

/-- Install the global namespace as a root. -/
def setGlobals (globals : Option Handle) : HeapM Unit :=
  modifyRoots fun r => { r with globals := globals }

/-- Pin an object for an active frame. -/
def pushRoot (x : Handle) : HeapM Unit :=
  modifyRoots fun r => r.push x

/-- Unpin the object pinned last. -/
def popRoot : HeapM (Option Handle) := do
  let h ← heap
  modifyRoots fun r => r.pop.2
  return h.roots.pop.1

/-- Drop frame roots down to `depth`. -/
def truncateRoots (depth : Nat) : HeapM Unit :=
  modifyRoots fun r => r.truncate depth

/-- Keep an object until the current construction ends. -/
def protect (x : Handle) : HeapM Unit :=
  modifyRoots fun r => r.protect x

/-- Run the steps of a construction. What they protect is released when they are
done, whether they succeed or fail. -/
def guarded (body : HeapM α) : HeapM α := fun m =>
  let depth := m.heap.roots.inFlight.length
  match body { m with heap := { m.heap with roots := m.heap.roots.enter } } with
  | (outcome, m') => (outcome, { m' with heap := { m'.heap with roots := m'.heap.roots.leave depth } })

/-! ### Collection and allocation -/

/-- Collect, keeping also what `pins` lead to. -/
def collectWith (pins : List Handle) : HeapM CollectStats := fun m =>
  let c := m.heap.collectWith pins
  (.ok c.stats, { heap := c.heap, log := m.log ++ c.events.toArray })

/-- Collect now. -/
def collect : HeapM CollectStats :=
  collectWith []

/-- Enter an object that is known to fit. -/
def install (p : Payload) : HeapM Handle := fun m =>
  let size := p.chunkBytes
  let (x, arena) := m.heap.arena.insert { header := { tag := p.tag, chunkBytes := size }, payload := p }
  (.ok x, { heap := { m.heap with arena := arena, bytesInUse := m.heap.bytesInUse + size }
            log := m.log.push (.allocated p.tag x.slot size) })

/-- Report that an object of `size` bytes found no room, and fail. -/
def refuse (size : Nat) (e : Error) : HeapM α := do
  let h ← heap
  emit (.outOfMemory size h.bytesFree)
  throw e

/-- Collect if `size` bytes do not fit and the settings ask for it. -/
def makeRoom (size : Nat) (pins : List Handle) : HeapM Unit := do
  let h ← heap
  if !h.fits size && h.config.collectOnExhaustion then
    let _ ← collectWith pins
  else
    return ()

/-- Enter an object if it fits. -/
def installFitting (p : Payload) : HeapM Handle := do
  let h ← heap
  if h.fits p.chunkBytes then install p else refuse p.chunkBytes .exhausted

/-- Allocate a chunk, collecting once if the budget does not admit it. The
collection keeps what the payload leads to and what `pins` lead to, so that
nothing the caller is about to link gets lost. -/
def allocatePinned (p : Payload) (pins : List Handle) : HeapM Handle := do
  let h ← heap
  if h.config.maxChunkBytes < p.chunkBytes then
    refuse p.chunkBytes .oversized
  else
    makeRoom p.chunkBytes (pins ++ p.children)
    installFitting p

/-- Allocate a chunk; nothing but what the payload leads to needs pinning. -/
def allocate (p : Payload) : HeapM Handle :=
  allocatePinned p []

/-- Release one chunk at once. -/
def freeChunk (x : Handle) : HeapM Unit := fun m =>
  match m.heap.arena.remove x with
  | none => (.error .danglingFree, m)
  | some (o, arena) =>
    (.ok (), { heap := { m.heap with arena := arena, bytesInUse := m.heap.bytesInUse - o.header.chunkBytes }
               log := m.log.push (.released x.slot o.header.chunkBytes) })

/-- Replace what a live object holds. -/
def setPayload (x : Handle) (p : Payload) : HeapM Unit := do
  let _ ← inspect fun h => h.object x
  modify fun h => h.setPayload x p

end HeapM

/-! ### Making a heap -/

/-- A heap before its constants are made. -/
def Heap.blank (config : HeapConfig) : Heap :=
  { config := config }

open HeapM in
/-- Make the four constants, each protected until all exist. -/
def makeConstants : HeapM Constants := do
  let none ← allocate .none
  protect none
  let minusOne ← allocate (.int (-1))
  protect minusOne
  let zero ← allocate (.int 0)
  protect zero
  let one ← allocate (.int 1)
  protect one
  return { none, minusOne, zero, one }

open HeapM in
/-- Check the settings and make the constants, on a blank heap. -/
def boot : HeapM Unit := do
  inspect fun h => h.config.validate
  let constants ← guarded makeConstants
  modify fun h => { h with constants := constants }
  let h ← heap
  emit (.heapReady h.config.arenaBytes h.config.maxChunkBytes)

/-- A new heap. The machine comes with the events of its making, also on failure. -/
def Machine.create (config : HeapConfig) : Except Error Unit × Machine :=
  boot.run { heap := Heap.blank config }

end ChunkHeap

import ChunkHeap.Proofs.Allocation
import Mathlib.Algebra.Order.BigOperators.Group.List
import Mathlib.Algebra.Order.Group.Nat

/-!
# Byte and slot accounting

A client of the heap allocates, releases, overwrites, roots, opens and closes
constructions and collects, in any order and whatever the outcomes. `Session.run`
takes a list of such calls; a session remembers, for each open construction, how
many objects were under construction when it began.

`Heap.Balanced` is what every call keeps (`Session.Sane.step`): accounts that
agree with the arena, a budget that holds, chunks of proper size, and no more
slots than smallest chunks fit into the budget. The last holds because a slot is
made only when every slot is live, so that each of them is paid for.
-/

namespace ChunkHeap
set_option autoImplicit false

namespace Arena

/-- Distinct live objects of weight `n` or more each weigh no more than all objects. -/
theorem mul_length_le_weight {a : Arena} {w : Object → Nat} {n : Nat} {xs : List Handle} (distinct : xs.Nodup)
    (live : ∀ x ∈ xs, ∃ o, a.get? x = some o ∧ n ≤ w o) : n * xs.length ≤ a.weight w := by
  -- the entries of the objects among `xs`
  let es := a.objects.filter fun e => e.1 ∈ xs
  have listed : xs ⊆ es.map Prod.fst := by
    intro x member
    obtain ⟨o, found, -⟩ := live x member
    exact List.mem_map.2 ⟨(x, o), List.mem_filter.2 ⟨mem_objects_iff.2 found, by simpa using member⟩, rfl⟩
  have count : xs.length ≤ es.length := by simpa using (List.subperm_of_subset distinct listed).length_le
  have heavy : ∀ v ∈ es.map fun e => w e.2, n ≤ v := by
    intro v member
    obtain ⟨e, kept, rfl⟩ := List.mem_map.1 member
    obtain ⟨inside, among⟩ := List.mem_filter.1 kept
    obtain ⟨o, found, least⟩ := live e.1 (by simpa using among)
    rw [mem_objects_iff.1 inside] at found
    cases found
    exact least
  rw [weight, total_eq_sum]
  calc
    n * xs.length ≤ n * es.length := Nat.mul_le_mul_left n count
    _ = (es.map fun e => w e.2).length • n := by rw [List.length_map, Nat.nsmul_eq_mul, Nat.mul_comm]
    _ ≤ (es.map fun e => w e.2).sum := List.card_nsmul_le_sum _ n heavy
    _ ≤ (a.objects.map fun e => w e.2).sum := (List.filter_sublist.map _).sum_le_sum fun v _ => Nat.zero_le v

theorem weight_le_of_get? (w : Object → Nat) {a : Arena} {x : Handle} {o : Object} (found : a.get? x = some o) :
    w o ≤ a.weight w := by
  obtain ⟨b, removed, -⟩ := discard_eq found
  have := weight_remove w removed
  omega

end Arena

namespace Heap

/-- A chunk size that the size model can give. -/
def ProperChunk (size : Nat) : Prop :=
  Chunk.granule ∣ size ∧ Chunk.minimum ≤ size

/-- The accounts of a heap agree with its arena and stay within its budget. -/
structure Balanced (h : Heap) : Prop where
  accounted : h.Accounted
  budget : h.bytesInUse ≤ h.config.arenaBytes
  chunks : ∀ x o, h.arena.get? x = some o → ProperChunk o.header.chunkBytes
  slots : Chunk.minimum * h.arena.slots.size ≤ h.config.arenaBytes

variable {h : Heap}

theorem Balanced.blank (config : HeapConfig) : (Heap.blank config).Balanced where
  accounted := {
    arena := { freeList := ⟨[], rfl, List.nodup_nil, by simp [Heap.blank], rfl⟩, live := rfl }
    bytes := rfl }
  budget := Nat.zero_le _
  chunks := by
    intro x o found
    simp [Heap.blank, Arena.get?] at found
  slots := by simp [Heap.blank]

/-- Roots, constants and the collection counter do not enter the accounts. -/
theorem Balanced.congr {g : Heap} (ok : h.Balanced) (arena : g.arena = h.arena) (config : g.config = h.config)
    (bytes : g.bytesInUse = h.bytesInUse) : g.Balanced where
  accounted := ⟨arena ▸ ok.accounted.arena, by rw [bytes, arena, ok.accounted.bytes]⟩
  budget := by rw [bytes, config]; exact ok.budget
  chunks := arena ▸ ok.chunks
  slots := by rw [arena, config]; exact ok.slots

theorem Balanced.collectWith (ok : h.Balanced) (pins : List Handle) : (h.collectWith pins).heap.Balanced := by
  obtain ⟨accounted, bytes⟩ := ok.accounted.collectWith pins
  have config : (h.collectWith pins).heap.config = h.config := by rw [collectWith_heap]
  refine ⟨accounted, ?_, ?_, ?_⟩
  · have := ok.budget
    rw [config]
    omega
  · intro x p found
    obtain ⟨o, before, -, rfl⟩ := (collectWith_get? ok.accounted.arena).1 found
    exact ok.chunks x o before
  · have slots : (h.collectWith pins).heap.arena.slots.size = h.arena.slots.size := by
      obtain ⟨sound, -⟩ := h.traced_spec pins
      have consistent : (h.traced pins).arena.Consistent := by
        rw [sound.arena]
        exact ok.accounted.arena.adjust _
      obtain ⟨-, -, -, size⟩ := Arena.sweep_spec consistent
      rw [collectWith_heap, size, sound.arena, Arena.size_adjust]
    rw [config, slots]
    exact ok.slots

theorem Balanced.room (ok : h.Balanced) (size : Nat) (pins : List Handle) : (h.room size pins).Balanced := by
  obtain same | same := h.room_cases size pins
  · rw [same]
    exact ok
  · rw [same]
    exact ok.collectWith pins

/-- Entering an object that fits. A new slot is taken only when all are live, and
then the bytes in use pay for every one of them. -/
theorem Balanced.place (ok : h.Balanced) {p : Payload} (fits : h.fits p.chunkBytes = true) : (h.place p).2.Balanced := by
  have budget : h.bytesInUse + p.chunkBytes ≤ h.config.arenaBytes := by simpa [Heap.fits] using fits
  refine ⟨ok.accounted.place p, budget, ?_, ?_⟩
  · intro x o found
    rw [place_get? ok.accounted.arena] at found
    split at found
    · cases found
      exact ⟨p.granule_dvd_chunkBytes, p.minimum_le_chunkBytes⟩
    · exact ok.chunks x o found
  · show Chunk.minimum * (h.arena.insert (newObject p)).2.slots.size ≤ h.config.arenaBytes
    cases head : h.arena.freeHead with
    | some i =>
      have same : (h.arena.insert (newObject p)).2.slots.size = h.arena.slots.size := by simp [Arena.insert, head]
      rw [same]
      exact ok.slots
    | none =>
      have grown : (h.arena.insert (newObject p)).2.slots.size = h.arena.slots.size + 1 := by simp [Arena.insert, head]
      have all : h.arena.objects.length = h.arena.slots.size := by
        have live := ok.accounted.arena.live
        have none_free := ok.accounted.arena.free_eq_zero head
        have total := ok.accounted.arena.live_add_free
        omega
      have paid : Chunk.minimum * h.arena.objects.length ≤ h.bytesInUse := by
        rw [ok.accounted.bytes, ← Arena.length_handles]
        refine Arena.mul_length_le_weight h.arena.handles_nodup fun x member => ?_
        obtain ⟨o, found⟩ := Arena.mem_handles_iff.1 member
        exact ⟨o, found, (ok.chunks x o found).2⟩
      have least := p.minimum_le_chunkBytes
      rw [grown, ← all, Nat.mul_add]
      omega

theorem Balanced.release (ok : h.Balanced) {x : Handle} {o : Object} {arena : Arena}
    (removed : h.arena.remove x = some (o, arena)) :
    { h with arena := arena, bytesInUse := h.bytesInUse - o.header.chunkBytes }.Balanced := by
  refine ⟨ok.accounted.release removed, ?_, ?_, ?_⟩
  · have := ok.budget
    simp only
    omega
  · intro y p found
    simp only [release_get? removed] at found
    split at found
    · cases found
    · exact ok.chunks y p found
  · rw [Arena.size_remove removed]
    exact ok.slots

/-- Overwriting a payload, whatever its size, leaves the header and so the
accounts as they were. -/
theorem Balanced.setPayload (ok : h.Balanced) (x : Handle) (p : Payload) : (h.setPayload x p).Balanced where
  accounted := ok.accounted.setPayload x p
  budget := ok.budget
  chunks := by
    intro y o found
    simp only [Heap.setPayload, Arena.setPayload, Arena.get?_update] at found
    split at found
    · obtain ⟨before, live, rfl⟩ := Option.map_eq_some_iff.1 found
      exact ok.chunks y before live
    · exact ok.chunks y o found
  slots := by simpa [Heap.setPayload, Arena.setPayload, Arena.update] using ok.slots

end Heap

/-! ### Operations that keep the books -/

namespace HeapM

variable {α β : Type}

/-- An operation leaves the accounts in order on success and on failure, and
ends as many constructions as it begins. -/
def KeepsBooks (op : HeapM α) : Prop :=
  ∀ m : Machine, m.heap.Balanced → (op.run m).2.heap.Balanced ∧ (op.run m).2.heap.config = m.heap.config ∧
    (op.run m).2.heap.roots.constructions = m.heap.roots.constructions

theorem KeepsBooks.bind {op : HeapM α} {f : α → HeapM β} (first : op.KeepsBooks) (second : ∀ a, (f a).KeepsBooks) :
    (op >>= f).KeepsBooks := by
  intro m ok
  obtain ⟨balanced, config, open_⟩ := first m ok
  rw [run_bind]
  split
  · rename_i a m' ran
    rw [ran] at balanced config open_
    obtain ⟨balanced', config', open'⟩ := second a m' balanced
    exact ⟨balanced', config'.trans config, open'.trans open_⟩
  · rename_i e m' ran
    rw [ran] at balanced config open_
    exact ⟨balanced, config, open_⟩

theorem keepsBooks_pure (a : α) : (pure a : HeapM α).KeepsBooks :=
  fun _ ok => ⟨ok, rfl, rfl⟩

theorem keepsBooks_inspect (f : Heap → Except Error α) : (inspect f).KeepsBooks :=
  fun _ ok => ⟨ok, rfl, rfl⟩

theorem keepsBooks_heap : heap.KeepsBooks :=
  fun _ ok => ⟨ok, rfl, rfl⟩

theorem keepsBooks_emit (e : Event) : (emit e).KeepsBooks :=
  fun _ ok => ⟨ok, rfl, rfl⟩

theorem keepsBooks_modifyRoots {f : RootSet → RootSet} (same : ∀ r, (f r).constructions = r.constructions) :
    (modifyRoots f).KeepsBooks :=
  fun m ok => ⟨ok.congr rfl rfl rfl, rfl, same m.heap.roots⟩

theorem keepsBooks_setPayload (x : Handle) (p : Payload) : (setPayload x p).KeepsBooks := by
  refine (keepsBooks_inspect _).bind fun _ => ?_
  intro m ok
  exact ⟨ok.setPayload x p, rfl, rfl⟩

theorem keepsBooks_collectWith (pins : List Handle) : (collectWith pins).KeepsBooks := by
  intro m ok
  refine ⟨ok.collectWith pins, ?_, ?_⟩
  · show (m.heap.collectWith pins).heap.config = _
    rw [Heap.collectWith_heap]
  · show (m.heap.collectWith pins).heap.roots.constructions = _
    rw [Heap.collectWith_heap]

theorem keepsBooks_allocatePinned (p : Payload) (pins : List Handle) : (allocatePinned p pins).KeepsBooks := by
  intro m ok
  have roomy := ok.room p.chunkBytes (pins ++ p.children)
  obtain ⟨log, ran⟩ := run_allocatePinned p pins m
  rw [ran]
  split
  · exact ⟨ok, rfl, rfl⟩
  · split
    · rename_i fits
      refine ⟨roomy.place fits, ?_, ?_⟩ <;> simp [Heap.place]
    · exact ⟨roomy, by simp, by simp⟩

theorem keepsBooks_freeChunk (x : Handle) : (freeChunk x).KeepsBooks := by
  intro m ok
  obtain ⟨log, ran⟩ := run_freeChunk x m
  rw [ran]
  split
  · exact ⟨ok, rfl, rfl⟩
  · rename_i o arena removed
    exact ⟨ok.release removed, rfl, rfl⟩

theorem KeepsBooks.guarded {body : HeapM α} (inner : body.KeepsBooks) : (guarded body).KeepsBooks := by
  intro m ok
  obtain ⟨balanced, config, open_⟩ := inner (m.mapRoots RootSet.enter) (ok.congr rfl rfl rfl)
  rw [run_guarded]
  refine ⟨balanced.congr rfl rfl rfl, config, ?_⟩
  show (body.run (m.mapRoots RootSet.enter)).2.heap.roots.constructions - 1 = m.heap.roots.constructions
  rw [open_]
  rfl

theorem keepsBooks_makeConstants : makeConstants.KeepsBooks := by
  have kept : ∀ x, (protect x).KeepsBooks := fun x => keepsBooks_modifyRoots fun _ => rfl
  have made : ∀ p, (allocate p).KeepsBooks := fun p => keepsBooks_allocatePinned p []
  refine (made _).bind fun _ => (kept _).bind fun _ => (made _).bind fun _ => (kept _).bind fun _ => ?_
  exact (made _).bind fun _ => (kept _).bind fun _ => (made _).bind fun _ => (kept _).bind fun _ => keepsBooks_pure _

theorem keepsBooks_boot : boot.KeepsBooks := by
  refine (keepsBooks_inspect _).bind fun _ => keepsBooks_makeConstants.guarded.bind fun constants => ?_
  refine KeepsBooks.bind (fun m ok => ⟨ok.congr rfl rfl rfl, rfl, rfl⟩) fun _ => ?_
  exact keepsBooks_heap.bind fun _ => keepsBooks_emit _

end HeapM

/-! ### Sessions -/

/-- A machine in use, with the depth at which each open construction began, the
latest first. -/
structure Session where
  machine : Machine
  guards : List Nat := []

/-- A call on a heap. `overwrite` is a write through a mutable reference to the
payload. `protect` and `drop` belong to the construction opened last. -/
inductive HeapCall where
  | allocate (p : Payload)
  | allocatePinned (p : Payload) (pins : List Handle)
  | freeChunk (x : Handle)
  | overwrite (x : Handle) (p : Payload)
  | setGlobals (globals : Option Handle)
  | pushRoot (x : Handle)
  | popRoot
  | truncateRoots (depth : Nat)
  | acquire
  | protect (x : Handle)
  | drop
  | collect

namespace Session

open HeapM

/-- Run an operation and go on with the machine it leaves, whatever its outcome. -/
def after {α : Type} (s : Session) (op : HeapM α) : Session :=
  { s with machine := (op.run s.machine).2 }

/-- The session after one call. -/
def step (s : Session) : HeapCall → Session
  | .allocate p => s.after (allocate p)
  | .allocatePinned p pins => s.after (allocatePinned p pins)
  | .freeChunk x => s.after (freeChunk x)
  | .overwrite x p => s.after (setPayload x p)
  | .setGlobals globals => s.after (setGlobals globals)
  | .pushRoot x => s.after (pushRoot x)
  | .popRoot => s.after popRoot
  | .truncateRoots depth => s.after (truncateRoots depth)
  | .acquire =>
    { s.after (modifyRoots RootSet.enter) with guards := s.machine.heap.roots.inFlight.length :: s.guards }
  | .protect x => if s.guards = [] then s else s.after (protect x)
  | .drop =>
    match s.guards with
    | [] => s
    | depth :: outer => { s.after (modifyRoots fun r => r.leave depth) with guards := outer }
  | .collect => s.after collect

/-- The session after a list of calls. -/
def run (s : Session) (calls : List HeapCall) : Session :=
  calls.foldl step s

/-- A construction is what `acquire` and `drop` enclose. -/
theorem guarded_eq_acquire_drop {α : Type} (body : HeapM α) (m : Machine) (outer : List Nat) :
    ((guarded body).run m).2 =
      ((({ machine := m, guards := outer : Session }.step .acquire).after body).step .drop).machine := rfl

/-- What holds of a session between two calls. -/
structure Sane (config : HeapConfig) (s : Session) : Prop where
  balanced : s.machine.heap.Balanced
  config : s.machine.heap.config = config
  guards : s.machine.heap.roots.constructions = s.guards.length

variable {config : HeapConfig} {s : Session}

theorem Sane.after {α : Type} {op : HeapM α} (sane : s.Sane config) (keeps : op.KeepsBooks) :
    (s.after op).Sane config := by
  obtain ⟨balanced, same, guards⟩ := keeps s.machine sane.balanced
  exact ⟨balanced, same.trans sane.config, guards.trans sane.guards⟩

/-- One call, with any outcome, keeps the books. -/
theorem Sane.step (sane : s.Sane config) (call : HeapCall) : (s.step call).Sane config := by
  cases call with
  | allocate p => exact sane.after (keepsBooks_allocatePinned p [])
  | allocatePinned p pins => exact sane.after (keepsBooks_allocatePinned p pins)
  | freeChunk x => exact sane.after (keepsBooks_freeChunk x)
  | overwrite x p => exact sane.after (keepsBooks_setPayload x p)
  | setGlobals globals => exact sane.after (keepsBooks_modifyRoots fun _ => rfl)
  | pushRoot x => exact sane.after (keepsBooks_modifyRoots fun _ => rfl)
  | popRoot =>
    refine sane.after (keepsBooks_heap.bind fun _ => KeepsBooks.bind ?_ fun _ => keepsBooks_pure _)
    exact keepsBooks_modifyRoots fun _ => rfl
  | truncateRoots depth => exact sane.after (keepsBooks_modifyRoots fun _ => rfl)
  | acquire => exact ⟨sane.balanced.congr rfl rfl rfl, sane.config, congrArg (· + 1) sane.guards⟩
  | protect x =>
    simp only [Session.step]
    split
    · exact sane
    · exact sane.after (keepsBooks_modifyRoots fun _ => rfl)
  | drop =>
    simp only [Session.step]
    split
    · exact sane
    · rename_i depth outer open_
      refine ⟨sane.balanced.congr rfl rfl rfl, sane.config, ?_⟩
      have count := sane.guards
      rw [open_] at count
      show (s.machine.heap.roots.leave depth).constructions = outer.length
      simp only [RootSet.leave]
      rw [count]
      rfl
  | collect => exact sane.after (keepsBooks_collectWith [])

/-- Every list of calls keeps the books. -/
theorem Sane.run (sane : s.Sane config) (calls : List HeapCall) : (s.run calls).Sane config := by
  induction calls generalizing s with
  | nil => exact sane
  | cons call rest ih => exact ih (sane.step call)

theorem Sane.create {m : Machine} (made : Machine.create config = (.ok (), m)) :
    Session.Sane config { machine := m } := by
  obtain ⟨balanced, same, guards⟩ := keepsBooks_boot { heap := Heap.blank config } (.blank config)
  rw [show (boot.run { heap := Heap.blank config }).2 = m by rw [← Machine.create, made]] at balanced same guards
  exact ⟨balanced, same, guards⟩

/-- The figures of a heap are right, and no subtraction made on them is cut off
at zero: not what is left of the budget, not a release, not a sweep, not the end
of a construction. -/
structure Audited (config : HeapConfig) (s : Session) : Prop where
  bytes : s.machine.heap.bytesInUse = total (fun e => e.2.header.chunkBytes) s.machine.heap.arena.objects
  budget : s.machine.heap.bytesInUse ≤ config.arenaBytes
  left : s.machine.heap.bytesInUse + s.machine.heap.bytesFree = config.arenaBytes
  release : ∀ x o, s.machine.heap.arena.get? x = some o → o.header.chunkBytes ≤ s.machine.heap.bytesInUse
  sweep : ∀ pins, (s.machine.heap.collectWith pins).stats.bytesReclaimed ≤ s.machine.heap.bytesInUse
  constructions : s.machine.heap.roots.constructions = s.guards.length
  chunks : ∀ x o, s.machine.heap.arena.get? x = some o → 4 ∣ o.header.chunkBytes ∧ 8 ≤ o.header.chunkBytes
  live : s.machine.heap.stats.liveObjects = s.machine.heap.arena.handles.length
  created : s.machine.heap.stats.liveObjects + s.machine.heap.stats.freeSlots = s.machine.heap.arena.slots.size
  slots : s.machine.heap.arena.slots.size ≤ config.arenaBytes / 8

/-- **Accounting.** After every list of calls on a new heap, with any mix of
successes and failures, the figures of the heap are right. -/
theorem run_audited (config : HeapConfig) (m : Machine) (made : Machine.create config = (.ok (), m))
    (calls : List HeapCall) : Session.Audited config (Session.run { machine := m } calls) := by
  have sane := (Sane.create made).run calls
  generalize Session.run { machine := m } calls = s at sane
  have budget := sane.balanced.budget
  have slots := sane.balanced.slots
  rw [sane.config] at budget slots
  exact {
    bytes := sane.balanced.accounted.bytes
    budget := budget
    left := by
      rw [Heap.bytesFree, sane.config]
      omega
    release := by
      intro x o found
      rw [sane.balanced.accounted.bytes]
      exact Arena.weight_le_of_get? (fun o => o.header.chunkBytes) found
    sweep := by
      intro pins
      have := (sane.balanced.accounted.collectWith pins).2
      omega
    constructions := sane.guards
    chunks := sane.balanced.chunks
    live := by rw [Arena.length_handles]; exact sane.balanced.accounted.arena.live
    created := sane.balanced.accounted.arena.live_add_free
    slots := by
      rw [show Chunk.minimum = 8 from rfl] at slots
      omega }

/-- A heap of four smallest chunks, all taken by the constants: the allocation
collects and fails, the release makes room, a second release finds nothing. -/
theorem run_audited_smallest :
    Machine.create { arenaBytes := 32, maxChunkBytes := 8 } =
        (.ok (), (Machine.create { arenaBytes := 32, maxChunkBytes := 8 }).2) ∧
      Session.Audited { arenaBytes := 32, maxChunkBytes := 8 }
        (Session.run { machine := (Machine.create { arenaBytes := 32, maxChunkBytes := 8 }).2 }
          [.acquire, .protect ⟨3⟩, .allocate (.int 7), .freeChunk ⟨3⟩, .freeChunk ⟨3⟩, .allocate (.int 7),
            .overwrite ⟨3⟩ (.str "longer than before"), .drop, .collect]) := by
  have made : Machine.create { arenaBytes := 32, maxChunkBytes := 8 } =
      (.ok (), (Machine.create { arenaBytes := 32, maxChunkBytes := 8 }).2) := by rfl
  exact ⟨made, run_audited _ _ made _⟩

end Session

end ChunkHeap

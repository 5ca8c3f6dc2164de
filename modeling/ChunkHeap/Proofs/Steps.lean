import ChunkHeap.Proofs.Accounting
import ChunkHeap.Proofs.Calls
import ChunkHeap.Proofs.Lineage

/-!
# The steps of an operation

Whatever an operation does to a machine, it does in steps of a few kinds:
rewriting a payload in place, entering a chunk that fits, releasing one,
collecting, reporting, and protecting objects within a construction
(`Machine.Steps`). What a callback does is a parameter.

That every operation takes such steps only (`HeapM.Takes`) is shown once, along
its definition, for every machine and every outcome. What the steps keep is then
shown once for all operations: `Machine.Steps.roots`, `Machine.Steps.balanced`,
`Machine.Steps.reported`, `Machine.Steps.tags` and, for tame steps, `Machine.Steps.lineal`
and `Machine.Steps.lasting`.
-/

namespace ChunkHeap
set_option autoImplicit false

open HeapM Heap

/-! ### Steps -/

/-- From one machine to another by the steps of an operation, or of the inside of
a construction (`building`). What callbacks do is `foreign`. While `tame` they neither
write to nor make objects that descend from others, and release nothing but segments. -/
inductive Machine.Steps (foreign : Machine → Machine → Prop) (tame : Bool) : (building : Bool) → Machine → Machine → Prop
  | refl {building : Bool} (m : Machine) : Steps foreign tame building m m
  | trans {building : Bool} {m m' m'' : Machine} (first : Steps foreign tame building m m')
      (second : Steps foreign tame building m' m'') : Steps foreign tame building m m''
  | edit {building : Bool} {m : Machine} {x : Handle} {p q : Payload} (found : m.heap.find? x = some p)
      (tag : q.tag = p.tag) (kind : tame = true → p.tag.descends = false) : Steps foreign tame building m (m.put x q)
  | report {building : Bool} (m : Machine) (e : Event) : Steps foreign tame building m { m with log := m.log.push e }
  | collect {building : Bool} (m : Machine) (pins : List Handle) :
      Steps foreign tame building m
        { heap := (m.heap.collectWith pins).heap, log := m.log ++ (m.heap.collectWith pins).events.toArray }
  | enter {building : Bool} {m : Machine} {p : Payload} (fits : m.heap.fits p.chunkBytes = true)
      (kind : tame = true → p.tag.descends = false) :
      Steps foreign tame building m
        { heap := (m.heap.place p).2, log := m.log.push (.allocated p.tag (m.heap.place p).1.slot p.chunkBytes) }
  | release {building : Bool} {m : Machine} {x : Handle} {o : Object} {arena : Arena}
      (removed : m.heap.arena.remove x = some (o, arena)) (kind : tame = true → o.payload.tag = .segment) :
      Steps foreign tame building m
        { heap := { m.heap with arena := arena, bytesInUse := m.heap.bytesInUse - o.header.chunkBytes }
          log := m.log.push (.released x.slot o.header.chunkBytes) }
  | protect (m : Machine) (x : Handle) : Steps foreign tame true m (m.mapRoots fun r => r.protect x)
  | construct {building : Bool} {m m' : Machine} (inner : Steps foreign tame true (m.mapRoots RootSet.enter) m') :
      Steps foreign tame building m (m'.mapRoots fun r => r.leave m.heap.roots.inFlight.length)
  | call {building : Bool} {m m' : Machine} (effect : foreign m m') : Steps foreign tame building m m'

namespace Machine

/-- What callbacks do when there are none. -/
def NoCalls (_ _ : Machine) : Prop :=
  False

/-- A slot was given to a new object on the way from `m` to `m'`. -/
def Born (m m' : Machine) (x : Handle) : Prop :=
  ∃ tag size, Event.allocated tag x.slot size ∈ m'.log.toList.drop m.log.size

variable {foreign : Machine → Machine → Prop} {tame building : Bool} {m m' m'' : Machine}

/-! ### What the steps keep -/

/-- Steps change the roots only by protecting objects, and that only within a construction. -/
theorem Steps.extends_roots (outside : ∀ m m', foreign m m' → m'.heap.roots = m.heap.roots)
    (steps : Steps foreign tame building m m') :
    ∃ xs, m'.heap.roots = { m.heap.roots with inFlight := m.heap.roots.inFlight ++ xs } ∧ (building = false → xs = []) := by
  have same : ∀ {building : Bool} {m m' : Machine}, m'.heap.roots = m.heap.roots →
      ∃ xs, m'.heap.roots = { m.heap.roots with inFlight := m.heap.roots.inFlight ++ xs } ∧ (building = false → xs = []) :=
    fun equal => ⟨[], by simp [equal], fun _ => rfl⟩
  induction steps with
  | refl => exact same rfl
  | trans _ _ first second =>
    obtain ⟨xs, roots, none⟩ := first
    obtain ⟨ys, roots', none'⟩ := second
    refine ⟨xs ++ ys, ?_, fun ended => by simp [none ended, none' ended]⟩
    rw [roots', roots, List.append_assoc]
  | edit => exact same rfl
  | report => exact same rfl
  | collect m pins => exact same (by simp only [collectWith_heap])
  | enter => exact same rfl
  | release => exact same rfl
  | protect m x => exact ⟨[x], rfl, fun ended => by cases ended⟩
  | @construct _ m m' _ ih =>
    obtain ⟨xs, roots, -⟩ := ih
    -- leaving drops what the body has protected, and the depth is back
    refine same ?_
    show m'.heap.roots.leave m.heap.roots.inFlight.length = m.heap.roots
    rw [roots]
    simp [RootSet.leave, Machine.mapRoots, RootSet.enter]
  | call effect => exact same (outside _ _ effect)

/-- An operation leaves the roots as it found them. -/
theorem Steps.roots (outside : ∀ m m', foreign m m' → m'.heap.roots = m.heap.roots)
    (steps : Steps foreign tame false m m') : m'.heap.roots = m.heap.roots := by
  obtain ⟨xs, roots, none⟩ := steps.extends_roots outside
  rw [roots, none rfl, List.append_nil]

/-- Steps keep the accounts in order and the settings as they are. -/
theorem Steps.balanced (steps : Steps NoCalls tame building m m') (ok : m.heap.Balanced) :
    m'.heap.Balanced ∧ m'.heap.config = m.heap.config := by
  induction steps with
  | refl => exact ⟨ok, rfl⟩
  | trans _ _ first second =>
    obtain ⟨ok', config⟩ := first ok
    obtain ⟨ok'', config'⟩ := second ok'
    exact ⟨ok'', config'.trans config⟩
  | edit => exact ⟨ok.setPayload _ _, rfl⟩
  | report => exact ⟨ok, rfl⟩
  | collect m pins => exact ⟨ok.collectWith pins, by simp only [collectWith_heap]⟩
  | enter fits => exact ⟨ok.place fits, rfl⟩
  | release removed => exact ⟨ok.release removed, rfl⟩
  | protect => exact ⟨ok.congr rfl rfl rfl, rfl⟩
  | construct _ ih =>
    obtain ⟨ok', config⟩ := ih (ok.congr rfl rfl rfl)
    exact ⟨ok'.congr rfl rfl rfl, config⟩
  | call effect => exact effect.elim

/-- What has been reported stays reported. -/
theorem Steps.reported (steps : Steps NoCalls tame building m m') : m.log.toList <+: m'.log.toList := by
  induction steps with
  | refl => exact List.prefix_refl _
  | trans _ _ first second => exact first.trans second
  | edit => exact List.prefix_refl _
  | report | collect | enter | release => simp
  | protect => exact List.prefix_refl _
  | construct _ ih => exact ih
  | call effect => exact effect.elim

theorem Born.trans_left {x : Handle} (later : m'.log.toList <+: m''.log.toList) (born : Born m m' x) :
    Born m m'' x := by
  obtain ⟨tag, size, event⟩ := born
  obtain ⟨more, same⟩ := later
  refine ⟨tag, size, ?_⟩
  rw [← same, List.drop_append]
  exact List.mem_append_left _ event

theorem Born.trans_right {x : Handle} (earlier : m.log.toList <+: m'.log.toList) (born : Born m' m'' x) :
    Born m m'' x := by
  obtain ⟨tag, size, event⟩ := born
  have shorter : m.log.size ≤ m'.log.size := by simpa using earlier.length_le
  refine ⟨tag, size, List.mem_of_mem_drop (i := m'.log.size - m.log.size) ?_⟩
  rwa [List.drop_drop, Nat.add_sub_cancel' shorter]

/-- Tame steps bring no new descent. -/
theorem Steps.lineal (steps : Steps NoCalls true building m m') (lineal : m.heap.Lineal) : m'.heap.Lineal := by
  induction steps with
  | refl => exact lineal
  | trans _ _ first second => exact second (first lineal)
  | edit found tag kind => exact lineal.written found tag (kind rfl)
  | report => exact lineal
  | collect m pins =>
    have swept : Swept pins m.heap (m.heap.collectWith pins).heap := .inr rfl
    exact lineal.swept swept
  | enter _ kind => exact lineal.entered (entered_place lineal.accounted _) (pedigree_of_tag (kind rfl))
  | @release _ m x o arena removed kind =>
    have live := find?_released removed
    have segment := kind rfl
    cases payload : o.payload with
    | segment r =>
      rw [payload] at live
      exact lineal.released (lineal.accounted.release removed) live (find?_release removed _)
    | _ =>
      rw [payload] at segment
      cases segment
  | protect => exact lineal.rerooted _
  | construct _ ih => exact (ih (lineal.rerooted _)).rerooted _
  | call effect => exact effect.elim

/-- A slot holds an object of the kind it held before, unless it was given to a new object. -/
theorem Steps.tags (steps : Steps NoCalls tame building m m') (ok : m.heap.Balanced) {x : Handle} {q : Payload}
    (found : m'.heap.find? x = some q) : Born m m' x ∨ ∃ p, m.heap.find? x = some p ∧ p.tag = q.tag := by
  induction steps generalizing q with
  | refl => exact .inr ⟨q, found, rfl⟩
  | trans one two first second =>
    rcases second (one.balanced ok).1 found with born | ⟨p, found', tag⟩
    · exact .inl (born.trans_right one.reported)
    · rcases first ok found' with born | ⟨p', found'', tag'⟩
      · exact .inl (born.trans_left two.reported)
      · exact .inr ⟨p', found'', tag'.trans tag⟩
  | @edit _ m y p r there tag =>
    rw [Machine.put_heap, find?_setPayload] at found
    split at found
    · rename_i same
      subst same
      rw [there] at found
      cases found
      exact .inr ⟨p, there, tag.symm⟩
    · exact .inr ⟨q, found, rfl⟩
  | report => exact .inr ⟨q, found, rfl⟩
  | collect m pins => exact .inr ⟨q, ((find?_collectWith ok.accounted.arena).1 found).1, rfl⟩
  | @enter _ m p _ =>
    rw [find?_place ok.accounted.arena] at found
    split at found
    · rename_i same
      subst same
      exact .inl ⟨p.tag, p.chunkBytes, by simp⟩
    · exact .inr ⟨q, found, rfl⟩
  | release removed =>
    rw [find?_release removed] at found
    split at found
    · cases found
    · exact .inr ⟨q, found, rfl⟩
  | protect => exact .inr ⟨q, found, rfl⟩
  | construct _ ih => exact ih (ok.congr rfl rfl rfl) found
  | call effect => exact effect.elim

theorem Steps.accounted (steps : Steps NoCalls tame building m m') (ok : m.heap.Accounted) : m'.heap.Accounted := by
  induction steps with
  | refl => exact ok
  | trans _ _ first second => exact second (first ok)
  | edit => exact ok.setPayload _ _
  | report => exact ok
  | collect m pins => exact (ok.collectWith pins).1
  | enter => exact ok.place _
  | release removed => exact ok.release removed
  | protect => exact ⟨ok.arena, ok.bytes⟩
  | construct _ ih =>
    have ok' := ih ⟨ok.arena, ok.bytes⟩
    exact ⟨ok'.arena, ok'.bytes⟩
  | call effect => exact effect.elim

/-- Collections are counted. -/
theorem Steps.collections_le (steps : Steps NoCalls tame building m m') : m.heap.collections ≤ m'.heap.collections := by
  induction steps with
  | refl => exact Nat.le_refl _
  | trans _ _ first second => exact Nat.le_trans first second
  | edit | report | enter | release | protect => exact Nat.le_refl _
  | collect m pins => simp only [collectWith_heap, Nat.le_add_right]
  | construct _ ih => exact ih
  | call effect => exact effect.elim

/-- Tame steps without a collection lose no object but segments. -/
theorem Steps.lasting (steps : Steps NoCalls true building m m') (ok : m.heap.Accounted)
    (uncollected : m'.heap.collections = m.heap.collections) {x : Handle} {p : Payload} (found : m.heap.find? x = some p)
    (kind : p.tag ≠ .segment) : ∃ q, m'.heap.find? x = some q ∧ q.tag = p.tag := by
  induction steps generalizing p with
  | refl => exact ⟨p, found, rfl⟩
  | trans one two first second =>
    have earlier := one.collections_le
    have later := two.collections_le
    obtain ⟨q, found', tag⟩ := first ok (by omega) found kind
    obtain ⟨r, found'', tag'⟩ := second (one.accounted ok) (by omega) found' (tag ▸ kind)
    exact ⟨r, found'', tag'.trans tag⟩
  | @edit _ m y p' q there tag =>
    rw [Machine.put_heap, find?_setPayload]
    split
    · rename_i same
      subst same
      rw [there] at found
      cases found
      exact ⟨q, by rw [there]; rfl, tag⟩
    · exact ⟨p, found, rfl⟩
  | report => exact ⟨p, found, rfl⟩
  | collect m pins =>
    simp only [collectWith_heap] at uncollected
    omega
  | @enter _ m q _ =>
    refine ⟨p, ?_, rfl⟩
    rw [find?_place ok.arena, if_neg, found]
    rintro rfl
    rw [find?_place_fresh ok.arena] at found
    cases found
  -- a release gives back segments only
  | @release _ m y o arena removed segment =>
    refine ⟨p, ?_, rfl⟩
    rw [find?_release removed, if_neg]
    · exact found
    · rintro rfl
      rw [find?_released removed] at found
      cases found
      exact kind (segment rfl)
  | protect => exact ⟨p, found, rfl⟩
  | construct _ ih => exact ih ⟨ok.arena, ok.bytes⟩ uncollected found kind
  | call effect => exact effect.elim

end Machine

/-! ### Operations that take such steps only -/

namespace HeapM

variable {α β γ : Type} {foreign : Machine → Machine → Prop} {tame building : Bool}

/-- An operation takes such steps only, from every machine and with every outcome. -/
def Takes (foreign : Machine → Machine → Prop) (tame building : Bool) (op : HeapM α) : Prop :=
  ∀ m, Machine.Steps foreign tame building m (op.run m).2

theorem takes_pure (a : α) : Takes foreign tame building (pure a : HeapM α) :=
  fun m => .refl m

theorem takes_throw (e : Error) : Takes foreign tame building (throw e : HeapM α) :=
  fun m => .refl m

theorem takes_inspect (f : Heap → Except Error α) : Takes foreign tame building (inspect f) :=
  fun m => .refl m

theorem takes_heap : Takes foreign tame building heap :=
  fun m => .refl m

theorem takes_emit (e : Event) : Takes foreign tame building (emit e) :=
  fun m => .report m e

theorem takes_protect (x : Handle) : Takes foreign tame true (protect x) :=
  fun m => .protect m x

theorem Takes.after {op : HeapM α} {f : α → HeapM β} {m : Machine}
    (second : ∀ a, Takes foreign tame building (f a)) (steps : Machine.Steps foreign tame building m (op.run m).2) :
    Machine.Steps foreign tame building m ((op >>= f).run m).2 := by
  rw [run_bind]
  split
  · rename_i a m' ran
    rw [ran] at steps
    exact steps.trans (second a m')
  · rename_i e m' ran
    rw [ran] at steps
    exact steps

theorem Takes.bind {op : HeapM α} {f : α → HeapM β} (first : Takes foreign tame building op)
    (second : ∀ a, Takes foreign tame building (f a)) : Takes foreign tame building (op >>= f) :=
  fun m => Takes.after second (first m)

theorem Takes.map {op : HeapM α} (takes : Takes foreign tame building op) (f : α → β) :
    Takes foreign tame building (f <$> op) := by
  rw [map_eq_pure_bind]
  exact takes.bind fun a => takes_pure (f a)

theorem Takes.recover {op : HeapM α} {handler : Error → HeapM α} (first : Takes foreign tame building op)
    (second : ∀ e, Takes foreign tame building (handler e)) : Takes foreign tame building (recover op handler) := by
  intro m
  have steps := first m
  rw [run_recover]
  split
  · rename_i a m' ran
    rw [ran] at steps
    exact steps
  · rename_i e m' ran
    rw [ran] at steps
    exact steps.trans (second e m')

theorem Takes.guarded {body : HeapM α} (inner : Takes foreign tame true body) : Takes foreign tame building (guarded body) :=
  fun m => .construct (inner (m.mapRoots RootSet.enter))

theorem Takes.times {op : HeapM Unit} (takes : Takes foreign tame building op) (n : Nat) :
    Takes foreign tame building (times n op) := by
  induction n with
  | zero => exact takes_pure ()
  | succ n ih => exact takes.bind fun _ => ih

theorem Takes.forEach {op : γ → HeapM Unit} (takes : ∀ x, Takes foreign tame building (op x)) (xs : List γ) :
    Takes foreign tame building (forEach op xs) := by
  induction xs with
  | nil => exact takes_pure ()
  | cons x xs ih => exact (takes x).bind fun _ => ih

theorem takes_collectWith (pins : List Handle) : Takes foreign tame building (collectWith pins) :=
  fun m => .collect m pins

theorem takes_makeRoom (size : Nat) (pins : List Handle) : Takes foreign tame building (makeRoom size pins) := by
  refine takes_heap.bind fun h => ?_
  split
  · exact (takes_collectWith pins).bind fun _ => takes_pure ()
  · exact takes_pure ()

theorem takes_refuse (size : Nat) (e : Error) : Takes foreign tame building (refuse size e : HeapM α) :=
  takes_heap.bind fun _ => (takes_emit _).bind fun _ => takes_throw e

theorem takes_installFitting (p : Payload) (kind : tame = true → p.tag.descends = false) :
    Takes foreign tame building (installFitting p) := by
  intro m
  have ran : (installFitting p).run m =
      (if m.heap.fits p.chunkBytes then install p else refuse p.chunkBytes .exhausted).run m := rfl
  rw [ran]
  split
  · rename_i fits
    exact .enter fits kind
  · exact takes_refuse _ _ m

theorem takes_allocatePinned (p : Payload) (pins : List Handle) (kind : tame = true → p.tag.descends = false) :
    Takes foreign tame building (allocatePinned p pins) := by
  refine takes_heap.bind fun h => ?_
  split
  · exact takes_refuse _ _
  · exact (takes_makeRoom _ _).bind fun _ => takes_installFitting p kind

theorem takes_allocate (p : Payload) (kind : tame = true → p.tag.descends = false) :
    Takes foreign tame building (allocate p) :=
  takes_allocatePinned p [] kind

theorem steps_freeChunk {m : Machine} {x : Handle} (kind : tame = true → ∃ r, m.heap.find? x = some (.segment r)) :
    Machine.Steps foreign tame building m ((freeChunk x).run m).2 := by
  cases removed : m.heap.arena.remove x with
  | none =>
    simp only [run, freeChunk, removed]
    exact .refl m
  | some e =>
    simp only [run, freeChunk, removed]
    refine .release removed fun holds => ?_
    obtain ⟨r, segment⟩ := kind holds
    rw [find?_released removed] at segment
    exact congrArg Payload.tag (Option.some.inj segment)

theorem takes_freeChunk (x : Handle) : Takes foreign false building (freeChunk x) :=
  fun _ => steps_freeChunk fun never => by cases never

/-- Reading a payload and writing another of the same kind in its place. -/
theorem takes_rewrite {ρ : Type} {x : Handle} {read : Heap → Except Error ρ} {write : ρ → Payload}
    (known : ∀ h r, read h = .ok r → ∃ p, h.find? x = some p ∧ (write r).tag = p.tag ∧ p.tag.descends = false) :
    Takes foreign tame building (do
      let r ← inspect read
      modify fun h => h.setPayload x (write r)) := by
  intro m
  cases reading : read m.heap with
  | error e =>
    rw [run_bind, run_inspect, reading]
    exact .refl m
  | ok r =>
    obtain ⟨p, found, tag, alone⟩ := known m.heap r reading
    rw [run_bind, run_inspect, reading]
    exact .edit found tag fun _ => alone

/-- The operation writes in place at most: objects stay, with their kinds. -/
def InPlace (op : HeapM α) : Prop :=
  ∀ m x p, m.heap.find? x = some p → ∃ q, (op.run m).2.heap.find? x = some q ∧ q.tag = p.tag

theorem InPlace.bind {op : HeapM α} {f : α → HeapM β} (first : InPlace op) (second : ∀ a, InPlace (f a)) :
    InPlace (op >>= f) := by
  intro m x p live
  obtain ⟨q, live', tag⟩ := first m x p live
  rw [run_bind]
  rcases ran : op.run m with ⟨e | a, m'⟩
  · rw [ran] at live'
    exact ⟨q, live', tag⟩
  · rw [ran] at live'
    obtain ⟨r, live'', tag'⟩ := second a m' x q live'
    exact ⟨r, live'', tag'.trans tag⟩

theorem inPlace_rewrite {ρ : Type} {x : Handle} {read : Heap → Except Error ρ} {write : ρ → Payload}
    (known : ∀ h r, read h = .ok r → ∃ p, h.find? x = some p ∧ (write r).tag = p.tag) :
    InPlace (do
      let r ← inspect read
      modify fun h => h.setPayload x (write r)) := by
  intro m y q live
  cases reading : read m.heap with
  | error e =>
    rw [run_bind, run_inspect, reading]
    exact ⟨q, live, rfl⟩
  | ok r =>
    obtain ⟨p, found, tag⟩ := known m.heap r reading
    rw [run_bind, run_inspect, reading]
    exact kept_setPayload found tag live

end HeapM

/-! ### The operations -/

namespace SegList

variable {foreign : Machine → Machine → Prop} {tame building : Bool}

theorem takes_modifyRecord (list : Handle) (f : SegListRecord → SegListRecord) :
    Takes foreign tame building (modifyRecord list f) :=
  takes_rewrite fun _ _ read => ⟨_, segListRecord_eq_ok_iff.1 read, rfl, rfl⟩

theorem takes_modifySegment (seg : Handle) (f : SegmentRecord → SegmentRecord) :
    Takes foreign tame building (modifySegment seg f) :=
  takes_rewrite fun _ _ read => ⟨_, segmentRecord_eq_ok_iff.1 read, rfl, rfl⟩

theorem takes_locate (list : Handle) (index : Nat) : Takes foreign tame building (locate list index) := by
  intro m
  rcases locate_moves list index m with same | ⟨r, cursor, found, moved⟩
  · rw [same]
    exact .refl m
  · rw [moved]
    exact .edit found rfl fun _ => rfl

theorem takes_get (list : Handle) (index : Nat) : Takes foreign tame building (get list index) := by
  refine (takes_locate list index).bind fun _ => (takes_inspect _).bind fun r => ?_
  split
  · exact takes_pure _
  · exact takes_throw _

theorem takes_new : Takes foreign tame building new :=
  takes_allocate _ fun _ => rfl

theorem takes_placeLast (list : Handle) (r : SegListRecord) (x : Handle) :
    Takes foreign tame building (placeLast list r x) := by
  unfold placeLast
  split
  · exact (takes_allocate _ fun _ => rfl).bind fun _ => takes_modifyRecord _ _
  · split
    · exact (takes_allocate _ fun _ => rfl).bind fun _ => (takes_modifySegment _ _).bind fun _ => takes_modifyRecord _ _
    · exact takes_modifySegment _ _

theorem takes_append (list x : Handle) : Takes foreign tame building (append list x) :=
  (takes_inspect _).bind fun r => (takes_placeLast list r x).bind fun _ => takes_modifyRecord _ _

theorem takes_pushAlong (list : Handle) (fuel : Nat) (spare : Option Handle) (seg : Handle) (offset : Nat)
    (carry : Handle) : Takes foreign tame building (pushAlong list fuel spare seg offset carry) := by
  induction fuel generalizing spare seg offset carry with
  | zero => exact takes_throw _
  | succ fuel ih =>
    refine (takes_inspect _).bind fun r => ?_
    split
    · exact takes_modifySegment _ _
    · split
      · exact takes_throw _
      · refine (takes_modifySegment _ _).bind fun _ => ?_
        split
        · exact ih _ _ _ _
        · exact (takes_modifySegment _ _).bind fun _ => (takes_modifyRecord _ _).bind fun _ => ih _ _ _ _
        · exact takes_throw _

theorem takes_spareFor (length : Nat) (x : Handle) : Takes foreign tame building (spareFor length x) := by
  unfold spareFor
  split
  · exact (takes_allocatePinned _ _ fun _ => rfl).map some
  · exact takes_pure _

theorem takes_insert (list x : Handle) (index : Nat) : Takes foreign tame building (insert list x index) := by
  refine (takes_inspect _).bind fun length => ?_
  split
  · exact takes_throw _
  · split
    · exact takes_append list x
    · refine (takes_spareFor length x).bind fun spare => (takes_locate list index).bind fun _ => takes_heap.bind fun _ => ?_
      exact (takes_pushAlong _ _ _ _ _ _).bind fun _ => takes_modifyRecord _ _

theorem takes_set (list : Handle) (index : Nat) (x : Handle) : Takes foreign tame building (set list index x) := by
  refine (takes_locate list index).bind fun _ => (takes_inspect _).bind fun r => ?_
  split
  · exact takes_modifySegment _ _
  · exact takes_throw _

theorem takes_pullAlong (fuel : Nat) (seg : Handle) : Takes foreign tame building (pullAlong fuel seg) := by
  induction fuel generalizing seg with
  | zero => exact takes_throw _
  | succ fuel ih =>
    refine (takes_inspect _).bind fun r => ?_
    split
    · exact takes_pure _
    · refine (takes_inspect _).bind fun s => ?_
      split
      · exact takes_throw _
      · exact (takes_modifySegment _ _).bind fun _ => (takes_modifySegment _ _).bind fun _ => ih _

theorem takes_trimChain (list : Handle) (length : Nat) : Takes foreign tame building (trimChain list length) := by
  unfold trimChain
  split
  · exact takes_modifyRecord _ _
  · exact (takes_locate _ _).bind fun _ => (takes_modifySegment _ _).bind fun _ => takes_modifyRecord _ _

theorem inPlace_locate (list : Handle) (index : Nat) : InPlace (locate list index) := by
  intro m x p live
  rcases locate_moves list index m with same | ⟨r, cursor, found, moved⟩
  · rw [same]
    exact ⟨p, live, rfl⟩
  · rw [moved]
    exact kept_setPayload (q := .seglist { r with cursor := cursor }) found rfl live

theorem inPlace_trimChain (list : Handle) (length : Nat) : InPlace (trimChain list length) := by
  have record : ∀ f, InPlace (modifyRecord list f) := fun f =>
    inPlace_rewrite fun _ _ read => ⟨_, segListRecord_eq_ok_iff.1 read, rfl⟩
  unfold trimChain
  split
  · exact record _
  · refine (inPlace_locate _ _).bind fun (seg, _) => InPlace.bind ?_ fun _ => record _
    exact inPlace_rewrite fun _ _ read => ⟨_, segmentRecord_eq_ok_iff.1 read, rfl⟩

theorem takes_dropEmptyTail (list seg : Handle) (length : Nat) :
    Takes foreign tame building (dropEmptyTail list seg length) := by
  intro m
  cases record : m.heap.segmentRecord seg with
  | error e =>
    rw [dropEmptyTail, run_bind_error (by rw [run_inspect, record])]
    exact .refl m
  | ok s =>
    rw [dropEmptyTail, run_bind_ok (run_inspect_ok record)]
    split
    · -- the segment is still one when the chain has been cut before it
      have takes : Takes foreign tame building (trimChain list length) := takes_trimChain list length
      have trimmed := takes m
      obtain ⟨q, there, tag⟩ := inPlace_trimChain list length m seg _ (segmentRecord_eq_ok_iff.1 record)
      rcases ran : (trimChain list length).run m with ⟨e | _, m'⟩
      · rw [ran] at trimmed
        rw [run_bind_error ran]
        exact trimmed
      · rw [ran] at trimmed there
        rw [run_bind_ok ran]
        refine trimmed.trans (steps_freeChunk fun _ => ?_)
        cases q <;> cases tag
        exact ⟨_, there⟩
    · exact .refl m

theorem takes_remove (list : Handle) (index : Nat) : Takes foreign tame building (remove list index) := by
  refine (takes_locate list index).bind fun _ => (takes_inspect _).bind fun r => ?_
  split
  · refine (takes_modifySegment _ _).bind fun _ => takes_heap.bind fun _ => (takes_pullAlong _ _).bind fun _ => ?_
    exact (takes_modifyRecord _ _).bind fun _ => (takes_inspect _).bind fun _ => takes_dropEmptyTail _ _ _
  · exact takes_throw _

theorem takes_releaseChain (fuel : Nat) (seg : Option Handle) : Takes foreign tame building (releaseChain fuel seg) := by
  induction fuel generalizing seg with
  | zero =>
    cases seg with
    | none => exact takes_pure _
    | some seg => exact takes_throw _
  | succ fuel ih =>
    cases seg with
    | none => exact takes_pure _
    | some seg =>
      intro m
      rw [releaseChain]
      cases record : m.heap.segmentRecord seg with
      | error e =>
        rw [run_bind_error (by rw [run_inspect, record])]
        exact .refl m
      | ok r =>
        rw [run_bind_ok (run_inspect_ok record)]
        exact Takes.after (fun _ => ih _) (steps_freeChunk fun _ => ⟨r, segmentRecord_eq_ok_iff.1 record⟩)

theorem takes_clear (list : Handle) : Takes foreign tame building (clear list) :=
  (takes_inspect _).bind fun _ => (takes_modifyRecord _ _).bind fun _ => takes_heap.bind fun _ => takes_releaseChain _ _

end SegList

namespace ListObject

variable {foreign : Machine → Machine → Prop} {tame building : Bool}

theorem takes_modifyRecord (list : Handle) (f : ListRecord → ListRecord) :
    Takes foreign tame building (modifyRecord list f) :=
  takes_rewrite fun _ _ read => ⟨_, listRecord_eq_ok_iff.1 read, rfl, rfl⟩

theorem takes_position (r : ListRecord) (index : Int) : Takes foreign tame building (position r index) := by
  unfold position
  split
  · exact takes_pure _
  · exact takes_throw _

theorem takes_new : Takes foreign tame building new :=
  SegList.takes_new.bind fun _ => takes_allocate _ fun _ => rfl

theorem takes_append (list x : Handle) : Takes foreign tame building (append list x) :=
  (takes_inspect _).bind fun _ => (SegList.takes_append _ _).bind fun _ => takes_modifyRecord _ _

theorem takes_get (list : Handle) (index : Int) : Takes foreign tame building (get list index) :=
  (takes_inspect _).bind fun _ => (takes_position _ _).bind fun _ => SegList.takes_get _ _

theorem takes_set (list : Handle) (index : Int) (x : Handle) : Takes foreign tame building (set list index x) :=
  (takes_inspect _).bind fun _ => (takes_position _ _).bind fun _ => SegList.takes_set _ _ _

theorem takes_insert (list : Handle) (index : Int) (x : Handle) : Takes foreign tame building (insert list index x) :=
  (takes_inspect _).bind fun _ => (SegList.takes_insert _ _ _).bind fun _ => takes_modifyRecord _ _

theorem takes_removeAt (list : Handle) (index : Int) : Takes foreign tame building (removeAt list index) :=
  (takes_inspect _).bind fun _ => (takes_position _ _).bind fun _ => (SegList.takes_remove _ _).bind fun _ =>
    takes_modifyRecord _ _

theorem takes_findFrom (storage value : Handle) (count i : Nat) :
    Takes foreign tame building (findFrom storage value count i) := by
  induction count generalizing i with
  | zero => exact takes_throw _
  | succ count ih =>
    refine (SegList.takes_get _ _).bind fun _ => (takes_inspect _).bind fun outcome => ?_
    cases outcome with
    | same => exact takes_pure _
    | differ => exact ih _

theorem takes_indexOf (list value : Handle) : Takes foreign tame building (indexOf list value) :=
  (takes_inspect _).bind fun _ => takes_findFrom _ _ _ _

theorem takes_remove (list value : Handle) : Takes foreign tame building (remove list value) :=
  (takes_indexOf list value).bind fun _ => takes_removeAt _ _

theorem takes_clear (list : Handle) : Takes foreign tame building (clear list) :=
  (takes_inspect _).bind fun _ => (SegList.takes_clear _).bind fun _ => takes_modifyRecord _ _

theorem takes_copyEvery (storage target : Handle) (step count i : Nat) :
    Takes foreign tame building (copyEvery storage target step count i) := by
  induction count generalizing i with
  | zero => exact takes_pure _
  | succ count ih => exact (SegList.takes_get _ _).bind fun _ => (takes_append _ _).bind fun _ => ih _

theorem takes_replicate (list : Handle) (count : Int) : Takes foreign tame building (replicate list count) := by
  refine (takes_inspect _).bind fun r => Takes.guarded ?_
  refine takes_new.bind fun _ => (takes_protect _).bind fun _ => ?_
  exact ((takes_copyEvery _ _ _ _ _).times _).bind fun _ => takes_pure _

theorem takes_slice (list : Handle) (start stop step : Int) : Takes foreign tame building (slice list start stop step) := by
  refine (takes_inspect _).bind fun r => (takes_inspect _).bind fun _ => Takes.guarded ?_
  exact takes_new.bind fun _ => (takes_protect _).bind fun _ => (takes_copyEvery _ _ _ _ _).bind fun _ => takes_pure _

theorem takes_sliceBy (list bounds : Handle) : Takes foreign tame building (sliceBy list bounds) :=
  (takes_inspect _).bind fun _ => (takes_inspect _).bind fun _ => takes_slice _ _ _ _

theorem takes_storeFrom (list : Handle) (i : Nat) (xs : List Handle) :
    Takes foreign tame building (storeFrom list i xs) := by
  induction xs generalizing i with
  | nil => exact takes_pure _
  | cons x xs ih => exact (takes_set _ _ _).bind fun _ => ih _

theorem takes_keepOwn (list source : Handle) (items : List Handle) : Takes foreign tame true (keepOwn list source items) := by
  unfold keepOwn
  split
  · exact Takes.forEach takes_protect items
  · exact takes_pure _

theorem takes_storeSlice (list : Handle) (start stop : Int) (source : Handle) :
    Takes foreign tame building (storeSlice list start stop source) := by
  refine (takes_inspect _).bind fun r => (takes_inspect _).bind fun items => Takes.guarded ?_
  refine (takes_keepOwn _ _ _).bind fun _ => takes_heap.bind fun _ => ?_
  exact ((takes_removeAt _ _).times _).bind fun _ => ((takes_insert _ _ _).times _).bind fun _ => takes_storeFrom _ _ _

end ListObject

namespace DictObject

variable {foreign : Machine → Machine → Prop} {tame building : Bool}

theorem takes_modifyRecord (dict : Handle) (f : DictRecord → DictRecord) :
    Takes foreign tame building (modifyRecord dict f) :=
  takes_rewrite fun _ _ read => ⟨_, dictRecord_eq_ok_iff.1 read, rfl, rfl⟩

theorem takes_findFrom (keys : Handle) (test : Heap → Handle → Except Error Bool) (count i : Nat) :
    Takes foreign tame building (findFrom keys test count i) := by
  induction count generalizing i with
  | zero => exact takes_pure _
  | succ count ih =>
    refine (SegList.takes_get _ _).bind fun _ => (takes_inspect _).bind fun passed => ?_
    split
    · exact takes_pure _
    · exact ih _

theorem takes_new : Takes foreign tame building new :=
  SegList.takes_new.bind fun _ => (takes_allocatePinned _ _ fun _ => rfl).bind fun _ => takes_allocate _ fun _ => rfl

theorem takes_appendEntry (r : DictRecord) (key value : Handle) : Takes foreign tame building (appendEntry r key value) :=
  (SegList.takes_append _ _).bind fun _ =>
    (SegList.takes_append _ _).recover fun e => (SegList.takes_remove _ _).bind fun _ => takes_throw e

theorem takes_set (dict key value : Handle) : Takes foreign tame building (set dict key value) := by
  refine (takes_inspect _).bind fun r => (takes_findFrom _ _ _ _).bind fun found => ?_
  split
  · exact SegList.takes_set _ _ _
  · refine Takes.guarded ((takes_protect _).bind fun _ => (takes_appendEntry _ _ _).bind fun _ => ?_)
    exact takes_modifyRecord _ _

theorem takes_valueAt (r : DictRecord) (found : Option Nat) : Takes foreign tame building (valueAt r found) := by
  cases found with
  | none => exact takes_pure _
  | some i => exact (SegList.takes_get _ _).map some

theorem takes_lookup (dict key : Handle) : Takes foreign tame building (lookup dict key) :=
  (takes_inspect _).bind fun _ => (takes_findFrom _ _ _ _).bind fun _ => takes_valueAt _ _

theorem takes_lookupText (dict : Handle) (text : String) : Takes foreign tame building (lookupText dict text) :=
  (takes_inspect _).bind fun _ => (takes_findFrom _ _ _ _).bind fun _ => takes_valueAt _ _

theorem takes_get (dict key : Handle) : Takes foreign tame building (get dict key) := by
  refine (takes_lookup dict key).bind fun found => ?_
  split
  · exact takes_pure _
  · exact takes_throw _

theorem takes_erase (dict key : Handle) : Takes foreign tame building (erase dict key) := by
  refine (takes_inspect _).bind fun r => (takes_findFrom _ _ _ _).bind fun found => ?_
  split
  · exact (SegList.takes_remove _ _).bind fun _ => (SegList.takes_remove _ _).bind fun _ => takes_modifyRecord _ _
  · exact takes_throw _

theorem takes_clear (dict : Handle) : Takes foreign tame building (clear dict) :=
  (takes_inspect _).bind fun _ => (SegList.takes_clear _).bind fun _ => (SegList.takes_clear _).bind fun _ =>
    takes_modifyRecord _ _

theorem takes_entry (dict : Handle) (index : Nat) : Takes foreign tame building (entry dict index) := by
  refine (takes_inspect _).bind fun r => ?_
  split
  · exact (SegList.takes_get _ _).bind fun _ => (SegList.takes_get _ _).bind fun _ => takes_pure _
  · exact takes_throw _

end DictObject

theorem SliceObject.takes_new {foreign : Machine → Machine → Prop} {tame building : Bool} (start stop step : Option Handle) :
    Takes foreign tame building (SliceObject.new start stop step) :=
  (takes_inspect _).bind fun _ => takes_allocate _ fun _ => rfl

theorem IntObject.takes_new {foreign : Machine → Machine → Prop} {tame building : Bool} (value : Int32) :
    Takes foreign tame building (IntObject.new value) := by
  refine takes_heap.bind fun h => ?_
  split
  · exact takes_pure _
  · exact takes_allocate _ fun _ => rfl

theorem FunctionObject.takes_new {foreign : Machine → Machine → Prop} {tame building : Bool} (name : Handle) (body : Body) :
    Takes foreign tame building (FunctionObject.new name body) :=
  (takes_inspect _).bind fun _ => takes_allocate _ fun _ => rfl

namespace ClassObject

variable {foreign : Machine → Machine → Prop} {tame building : Bool}

theorem takes_new (name attrs bases : Handle) : Takes foreign false building (new name attrs bases) := by
  refine (takes_inspect _).bind fun _ => (takes_inspect _).bind fun _ => (takes_inspect _).bind fun _ => ?_
  exact takes_allocate _ fun never => by cases never

theorem takes_setAttrs (obj attrs : Handle) : Takes foreign false building (setAttrs obj attrs) := by
  intro m
  rw [setAttrs, run_bind, run_inspect]
  split
  · rename_i p m' read
    obtain ⟨held, rfl⟩ := Prod.mk.inj read
    cases p with
    | inst r => exact .edit (payload_eq_ok_iff.1 held) rfl fun never => by cases never
    | _ => exact .refl _
  · rename_i e m' read
    obtain ⟨-, rfl⟩ := Prod.mk.inj read
    exact .refl _

theorem takes_bindMember (obj value : Handle) : Takes foreign tame building (bindMember obj value) := by
  refine (takes_inspect _).bind fun tag => ?_
  split
  · exact takes_allocate _ fun _ => rfl
  · exact takes_pure _

theorem takes_copyMembers (template attrs obj : Handle) (count i : Nat) :
    Takes foreign tame building (copyMembers template attrs obj count i) := by
  induction count generalizing i with
  | zero => exact takes_pure _
  | succ count ih =>
    exact (DictObject.takes_entry _ _).bind fun _ => (takes_bindMember _ _).bind fun _ =>
      (DictObject.takes_set _ _ _).bind fun _ => ih _

theorem takes_runInit {call : Interpreter} (calls : ∀ x args m, foreign m ((call x args).run m).2) (attrs : Handle) :
    Takes foreign tame building (runInit call attrs) := by
  refine (DictObject.takes_lookupText _ _).bind fun found => ?_
  split
  · exact takes_pure _
  · refine (takes_inspect _).bind fun tag => ?_
    split
    · exact Takes.bind (fun m => .call (calls _ _ m)) fun _ => takes_pure _
    · exact takes_throw _

theorem takes_assemble (template : ClassRecord) : Takes foreign false true (assemble template) := by
  have made : Takes foreign false true (allocate (.inst template)) := takes_allocate _ fun never => by cases never
  refine made.bind fun _ => (takes_protect _).bind fun _ => DictObject.takes_new.bind fun _ => ?_
  refine (takes_setAttrs _ _).bind fun _ => (takes_inspect _).bind fun _ => (takes_copyMembers _ _ _ _ _).bind fun _ => ?_
  exact takes_pure _

/-- What `__init__` does is the only foreign part of making an instance. -/
theorem takes_instantiate {call : Interpreter} (calls : ∀ x args m, foreign m ((call x args).run m).2) (cls : Handle) :
    Takes foreign false building (instantiate call cls) := by
  refine (takes_inspect _).bind fun template => Takes.guarded ((takes_emit _).bind fun _ => Takes.recover ?_ fun e => ?_)
  · refine Takes.bind ?_ fun obj => (takes_emit _).bind fun _ => takes_pure _
    exact (takes_assemble template).bind fun _ => (takes_runInit calls _).bind fun _ => takes_pure _
  · exact (takes_emit _).bind fun _ => takes_throw e

theorem takes_firstFound {search : Handle → HeapM (Option Handle)} (takes : ∀ x, Takes foreign tame building (search x))
    (xs : List Handle) : Takes foreign tame building (firstFound search xs) := by
  induction xs with
  | nil => exact takes_pure _
  | cons x xs ih =>
    refine (takes x).bind fun found => ?_
    split
    · exact takes_pure _
    · exact ih

theorem takes_lookupWithin (key : Handle) (fuel : Nat) (x : Handle) :
    Takes foreign tame building (lookupWithin key fuel x) := by
  induction fuel generalizing x with
  | zero => exact takes_pure _
  | succ fuel ih =>
    refine (takes_inspect _).bind fun r => (DictObject.takes_lookup _ _).bind fun found => ?_
    split
    · exact takes_pure _
    · exact (takes_inspect _).bind fun bases => takes_firstFound ih bases

theorem takes_get (x key : Handle) : Takes foreign tame building (get x key) := by
  refine (takes_heap.bind fun _ => takes_lookupWithin _ _ _ : Takes _ _ _ (lookup x key)).bind fun found => ?_
  split
  · exact takes_pure _
  · exact takes_throw _

theorem takes_set (x key value : Handle) : Takes foreign tame building (set x key value) :=
  (takes_inspect _).bind fun _ => DictObject.takes_set _ _ _

end ClassObject

/-! ### Calls -/

variable {foreign : Machine → Machine → Prop} {tame building : Bool}

theorem Lookup.takes (l : Lookup) : Takes foreign tame building l.run := by
  cases l with
  | segListItem list index => exact (SegList.takes_get _ _).bind fun _ => takes_pure _
  | listItem list index => exact (ListObject.takes_get _ _).bind fun _ => takes_pure _
  | listIndex list value => exact (ListObject.takes_indexOf _ _).bind fun _ => takes_pure _
  | dictLookup dict key => exact (DictObject.takes_lookup _ _).bind fun _ => takes_pure _
  | dictLookupText dict text => exact (DictObject.takes_lookupText _ _).bind fun _ => takes_pure _
  | dictItem dict key => exact (DictObject.takes_get _ _).bind fun _ => takes_pure _
  | dictEntry dict index => exact (DictObject.takes_entry _ _).bind fun _ => takes_pure _
  | getAttribute x key => exact (ClassObject.takes_get _ _).bind fun _ => takes_pure _

theorem Update.takes (u : Update) : Takes foreign tame building u.run := by
  cases u with
  | segListAppend list x => exact SegList.takes_append _ _
  | segListInsert list x index => exact SegList.takes_insert _ _ _
  | segListSet list index x => exact SegList.takes_set _ _ _
  | segListRemove list index => exact SegList.takes_remove _ _
  | segListClear list => exact SegList.takes_clear _
  | listAppend list x => exact ListObject.takes_append _ _
  | listInsert list index x => exact ListObject.takes_insert _ _ _
  | listSet list index x => exact ListObject.takes_set _ _ _
  | listRemoveAt list index => exact ListObject.takes_removeAt _ _
  | listRemove list value => exact ListObject.takes_remove _ _
  | listClear list => exact ListObject.takes_clear _
  | listStoreSlice list start stop source => exact ListObject.takes_storeSlice _ _ _ _
  | dictSet dict key value => exact DictObject.takes_set _ _ _
  | dictErase dict key => exact DictObject.takes_erase _ _
  | dictClear dict => exact DictObject.takes_clear _
  | setAttribute x key value => exact ClassObject.takes_set _ _ _

/-- Tuples and classes are made of what is there. -/
def Creation.descends : Creation → Bool
  | tuple _ | cls _ _ _ => true
  | _ => false

theorem Creation.takes (c : Creation) (kind : tame = true → c.descends = false) : Takes foreign tame building c.run := by
  cases c with
  | segList => exact SegList.takes_new
  | list => exact ListObject.takes_new
  | listReplicate x count => exact ListObject.takes_replicate _ _
  | listCopy x => exact ListObject.takes_replicate _ _
  | listSlice x start stop step => exact ListObject.takes_slice _ _ _ _
  | listSliceBy x bounds => exact ListObject.takes_sliceBy _ _
  | dict => exact DictObject.takes_new
  | tuple items => exact takes_allocate _ kind
  | str text => exact takes_allocate _ fun _ => rfl
  | int value => exact IntObject.takes_new _
  | slice start stop step => exact SliceObject.takes_new _ _ _
  | function name body => exact FunctionObject.takes_new _ _
  | cls name attrs bases =>
    cases tame with
    | false => exact ClassObject.takes_new _ _ _
    | true => cases kind rfl
  | method func receiver => exact takes_allocate _ fun _ => rfl

end ChunkHeap

import ChunkHeap.Proofs.Likeness.Newcomers
import ChunkHeap.Proofs.Likeness.Reading

/-!
# Operations that agree

The same operation is run in two heaps that mirror each other, on partners. Unless
one of the two runs out of memory, both fail alike or both succeed, and the heaps
mirror each other again (`Pairing.Agree`). The pairing may be another one by then:
objects that were collected in either heap have dropped out of it, and new objects have
joined it. An old object keeps its partner, and a new one is paired with a new one
(`Pairing.Continues`).

There is one rule for each way in which operations are put together.
-/

namespace ChunkHeap
set_option autoImplicit false

open HeapM Heap

namespace Pairing

variable {φ φ' φ'' : Pairing} {h g h' g' k : Heap} {m m' m₁ m₂ : Machine} {x y l : Handle} {α β γ δ : Type}

/-! ### Pairings in the course of a run -/

/-- From `m` to `m₁` in one heap, and from `m'` to `m₂` in the other: a pair is either an old
one, and neither slot was given to another object, or two new objects. -/
structure Continues (φ φ' : Pairing) (m m' m₁ m₂ : Machine) : Prop where
  reported : m.log.toList <+: m₁.log.toList
  reported' : m'.log.toList <+: m₂.log.toList
  pairs : ∀ x, φ'.covers x →
    (φ.covers x ∧ φ'.partner x = φ.partner x ∧ ¬ m.Born m₁ x ∧ ¬ m'.Born m₂ (φ'.partner x)) ∨
      m.Born m₁ x ∧ m'.Born m₂ (φ'.partner x)

/-- Nothing has been reported. -/
theorem continues_of_log (same : m₁.log = m.log) (same' : m₂.log = m'.log) : φ.Continues φ m m' m₁ m₂ := by
  refine ⟨same ▸ List.prefix_rfl, same' ▸ List.prefix_rfl, fun x covered => .inl ⟨covered, rfl, ?_, ?_⟩⟩
  · exact Machine.not_born_of_log same
  · exact Machine.not_born_of_log same'

theorem Continues.refl (φ : Pairing) (m m' : Machine) : φ.Continues φ m m' m m' :=
  continues_of_log rfl rfl

theorem Continues.trans {m₃ m₄ : Machine} (first : φ.Continues φ' m m' m₁ m₂) (second : φ'.Continues φ'' m₁ m₂ m₃ m₄) :
    φ.Continues φ'' m m' m₃ m₄ := by
  refine ⟨first.reported.trans second.reported, first.reported'.trans second.reported', fun x covered => ?_⟩
  rcases second.pairs x covered with ⟨before, same, unborn, unborn'⟩ | ⟨born, born'⟩
  · rw [same] at unborn' ⊢
    rcases first.pairs x before with ⟨start, same', earlier, earlier'⟩ | ⟨born, born'⟩
    · refine .inl ⟨start, same', fun born => ?_, fun born => ?_⟩
      · exact (born.split first.reported second.reported).elim earlier unborn
      · exact (born.split first.reported' second.reported').elim earlier' unborn'
    · exact .inr ⟨born.trans_left second.reported, born'.trans_left second.reported'⟩
  · exact .inr ⟨born.trans_right first.reported, born'.trans_right first.reported'⟩

/-- What is left of the pairing when nothing but segments is new. -/
theorem continues_within (left : m.Segmental m₁) (right : m'.Segmental m₂) (ok : m.heap.Accounted) (ok' : m'.heap.Accounted) :
    φ.Continues (φ.within m₁.heap m₂.heap) m m' m₁ m₂ :=
  ⟨left.reported, right.reported, fun _ ⟨covered, live, live'⟩ =>
    .inl ⟨covered, rfl, left.element ok live, right.element ok' live'⟩⟩

/-- The object `x` is within reach of the roots and has the partner `y`. -/
structure Binds (φ : Pairing) (h : Heap) (x y : Handle) : Prop where
  covered : φ.covers x
  partner : φ.partner x = y
  rooted : h.Rooted x

/-- Everything that is covered stays covered. -/
def Keeps (φ φ' : Pairing) : Prop :=
  ∀ x, φ.covers x → φ'.covers x ∧ φ'.partner x = φ.partner x

theorem Keeps.refl (φ : Pairing) : φ.Keeps φ :=
  fun _ covered => ⟨covered, rfl⟩

theorem Keeps.trans (first : φ.Keeps φ') (second : φ'.Keeps φ'') : φ.Keeps φ'' := by
  intro x covered
  obtain ⟨here, same⟩ := first x covered
  obtain ⟨there, same'⟩ := second x here
  exact ⟨there, same'.trans same⟩

/-- Everything within reach of the roots stays covered and within reach. -/
def KeepsRooted (φ : Pairing) (h : Heap) (φ' : Pairing) (h' : Heap) : Prop :=
  ∀ x y, φ.Binds h x y → φ'.Binds h' x y

theorem KeepsRooted.refl (φ : Pairing) (h : Heap) : φ.KeepsRooted h φ h :=
  fun _ _ binds => binds

theorem KeepsRooted.trans (first : φ.KeepsRooted h φ' h') (second : φ'.KeepsRooted h' φ'' k) : φ.KeepsRooted h φ'' k :=
  fun x y binds => second x y (first x y binds)

theorem Mirrors.anchored_partner (mirrors : φ.Mirrors h g) (covered : φ.covers x) (rooted : h.Rooted x) :
    g.Anchored (φ.partner x) :=
  ⟨(mirrors.rooted ⟨rooted, (mirrors.element covered).1⟩).2, (mirrors.element covered).2⟩

/-- Where both heaps keep what is within reach, so does the pairing. -/
theorem Mirrors.keepsRooted (mirrors : φ.Mirrors h g) (left : ∀ x, h.Anchored x → h'.Anchored x)
    (right : ∀ y, g.Anchored y → g'.Anchored y) : φ.KeepsRooted h (φ.within h' g') h' := by
  rintro x _ ⟨covered, rfl, rooted⟩
  have here := left x ⟨rooted, (mirrors.element covered).1⟩
  exact ⟨⟨covered, here.2, (right _ (mirrors.anchored_partner covered rooted)).2⟩, rfl, here.1⟩

/-- Where both heaps keep everything that is not a segment, so does the pairing. -/
theorem Mirrors.keeps (mirrors : φ.Mirrors h g) (left : ∀ x, h.Element x → h'.Element x)
    (right : ∀ y, g.Element y → g'.Element y) : φ.Keeps (φ.within h' g') :=
  fun x covered => ⟨⟨covered, left x (mirrors.element covered).1, right _ (mirrors.element covered).2⟩, rfl⟩

/-! ### Agreement -/

/-- How two runs, from `m` and from `m'`, end: one of them without memory; or both with
the same error; or both with results for which `ends` holds. -/
inductive Agree (φ : Pairing) (m m' : Machine) (ends : α → β → Pairing → Heap → Heap → Prop) :
    Except Error α × Machine → Except Error β × Machine → Prop
  | exhausted {e : Error} {m₁ : Machine} {other : Except Error β × Machine} (memory : e.kind = .memory) :
      Agree φ m m' ends (.error e, m₁) other
  | exhausted' {e : Error} {m₂ : Machine} {other : Except Error α × Machine} (memory : e.kind = .memory) :
      Agree φ m m' ends other (.error e, m₂)
  | failed {e : Error} {m₁ m₂ : Machine} {φ' : Pairing} (mirrors : φ'.Mirrors m₁.heap m₂.heap)
      (continues : φ.Continues φ' m m' m₁ m₂) : Agree φ m m' ends (.error e, m₁) (.error e, m₂)
  | done {a : α} {b : β} {m₁ m₂ : Machine} {φ' : Pairing} (mirrors : φ'.Mirrors m₁.heap m₂.heap)
      (continues : φ.Continues φ' m m' m₁ m₂) (holds : ends a b φ' m₁.heap m₂.heap) : Agree φ m m' ends (.ok a, m₁) (.ok b, m₂)

variable {ends ends' : α → β → Pairing → Heap → Heap → Prop} {last : γ → δ → Pairing → Heap → Heap → Prop}
  {result : Except Error α × Machine} {result' : Except Error β × Machine}

theorem Agree.mono (agree : φ.Agree m m' ends result result')
    (holds : ∀ a b φ' h' g', φ'.Mirrors h' g' → ends a b φ' h' g' → ends' a b φ' h' g') : φ.Agree m m' ends' result result' := by
  cases agree with
  | exhausted memory => exact .exhausted memory
  | exhausted' memory => exact .exhausted' memory
  | failed mirrors continues => exact .failed mirrors continues
  | done mirrors continues end_ => exact .done mirrors continues (holds _ _ _ _ _ mirrors end_)

/-- What has happened before does not matter. -/
theorem Agree.after (agree : φ'.Agree m₁ m₂ ends result result') (continues : φ.Continues φ' m m' m₁ m₂) :
    φ.Agree m m' ends result result' := by
  cases agree with
  | exhausted memory => exact .exhausted memory
  | exhausted' memory => exact .exhausted' memory
  | failed mirrors later => exact .failed mirrors (continues.trans later)
  | done mirrors later holds => exact .done mirrors (continues.trans later) holds

theorem Agree.bind {op : HeapM α} {op' : HeapM β} {f : α → HeapM γ} {f' : β → HeapM δ}
    (first : φ.Agree m m' ends (op.run m) (op'.run m'))
    (next : ∀ a b φ₁ m₁ m₂, φ₁.Mirrors m₁.heap m₂.heap → ends a b φ₁ m₁.heap m₂.heap →
      φ₁.Agree m₁ m₂ last ((f a).run m₁) ((f' b).run m₂)) :
    φ.Agree m m' last ((op >>= f).run m) ((op' >>= f').run m') := by
  rw [run_bind, run_bind]
  generalize op.run m = result at first
  generalize op'.run m' = result' at first
  cases first with
  | exhausted memory => exact .exhausted memory
  | exhausted' memory => exact .exhausted' memory
  | failed mirrors continues => exact .failed mirrors continues
  | done mirrors continues holds => exact (next _ _ _ _ _ mirrors holds).after continues

/-- What each operation is known to do adds to what is known of both. -/
theorem Agree.knowing {P : α → Heap → Prop} {Q : β → Heap → Prop} (agree : φ.Agree m m' ends result result')
    (left : ∀ a, result.1 = .ok a → P a result.2.heap) (right : ∀ b, result'.1 = .ok b → Q b result'.2.heap) :
    φ.Agree m m' (fun a b φ' h' g' => ends a b φ' h' g' ∧ P a h' ∧ Q b g') result result' := by
  cases agree with
  | exhausted memory => exact .exhausted memory
  | exhausted' memory => exact .exhausted' memory
  | failed mirrors continues => exact .failed mirrors continues
  | done mirrors continues holds => exact .done mirrors continues ⟨holds, left _ rfl, right _ rfl⟩

theorem agree_pure {a : α} {b : β} (mirrors : φ.Mirrors m.heap m'.heap) (holds : ends a b φ m.heap m'.heap) :
    φ.Agree m m' ends ((pure a : HeapM α).run m) ((pure b : HeapM β).run m') :=
  .done mirrors (.refl φ m m') holds

theorem agree_throw (e : Error) (mirrors : φ.Mirrors m.heap m'.heap) :
    φ.Agree m m' ends ((throw e : HeapM α).run m) ((throw e : HeapM β).run m') :=
  .failed mirrors (.refl φ m m')

/-- A reading whose results correspond. -/
theorem agree_inspect {F : Heap → Except Error α} {F' : Heap → Except Error β} (f : α → β) (mirrors : φ.Mirrors m.heap m'.heap)
    (same : F' m'.heap = (F m.heap).map f) (holds : ∀ a, F m.heap = .ok a → ends a (f a) φ m.heap m'.heap) :
    φ.Agree m m' ends ((inspect F).run m) ((inspect F').run m') := by
  rw [run_inspect, run_inspect, same]
  cases read : F m.heap with
  | error e => exact .failed mirrors (.refl φ m m')
  | ok a => exact .done mirrors (.refl φ m m') (holds a read)

/-- A reading that fails in both heaps. -/
theorem agree_inspect_error {F : Heap → Except Error α} {F' : Heap → Except Error β} {f : α → HeapM γ} {f' : β → HeapM δ} {e : Error}
    (mirrors : φ.Mirrors m.heap m'.heap) (failed : F m.heap = .error e) (failed' : F' m'.heap = .error e) :
    φ.Agree m m' last ((inspect F >>= f).run m) ((inspect F' >>= f').run m') := by
  rw [run_bind_error (by rw [run_inspect, failed]), run_bind_error (by rw [run_inspect, failed'])]
  exact .failed mirrors (.refl φ m m')

/-- Readings that move cursors. -/
theorem agree_glanced {r : Except Error α} {r' : Except Error β} (mirrors : φ.Mirrors m.heap m'.heap) (f : α → β)
    (same : r' = r.map f) (left : Glanced m.heap m₁.heap) (right : Glanced m'.heap m₂.heap)
    (grown : m.Segmental m₁) (grown' : m'.Segmental m₂)
    (holds : ∀ a, r = .ok a → φ.KeepsRooted m.heap (φ.within m₁.heap m₂.heap) m₁.heap →
      φ.Keeps (φ.within m₁.heap m₂.heap) → ends a (f a) (φ.within m₁.heap m₂.heap) m₁.heap m₂.heap) :
    φ.Agree m m' ends (r, m₁) (r', m₂) := by
  have after : (φ.within m₁.heap m₂.heap).Mirrors m₁.heap m₂.heap :=
    mirrors.altered (left.altered mirrors.sound fun _ => False) (right.altered mirrors.sound' fun _ => False)
      (fun _ _ => Iff.rfl) fun _ _ none => none.elim
  have continues : φ.Continues (φ.within m₁.heap m₂.heap) m m' m₁ m₂ :=
    continues_within grown grown' mirrors.sound.accounted mirrors.sound'.accounted
  subst same
  cases read : r with
  | error e => exact .failed after continues
  | ok a =>
    refine .done after continues (holds a read ?_ ?_)
    · exact mirrors.keepsRooted (fun _ anchored => left.anchored anchored) fun _ anchored => right.anchored anchored
    · exact mirrors.keeps (fun _ element => left.element element) fun _ element => right.element element

/-! ### Constructions -/

/-- Changing the roots alike. -/
theorem Mirrors.mapRoots (mirrors : φ.Mirrors m.heap m'.heap) {f f' : RootSet → RootSet}
    (same : f' (m.heap.roots.map φ.partner) = (f m.heap.roots).map φ.partner)
    (covered : ∀ x ∈ (f m.heap.roots).toList, φ.covers x) : φ.Mirrors (m.mapRoots f).heap (m'.mapRoots f').heap := by
  have rerooted := mirrors.rerooted covered
  rwa [← same, ← mirrors.roots] at rerooted

theorem Mirrors.covers_root (mirrors : φ.Mirrors h g) (root : x ∈ h.roots.toList) : φ.covers x :=
  mirrors.covered x (List.mem_append_left _ (List.mem_append_left _ root))

/-- The roots are not part of the record. -/
theorem Continues.mapRoots {f f' k k' : RootSet → RootSet} (continues : φ.Continues φ' (m.mapRoots f) (m'.mapRoots f') m₁ m₂) :
    φ.Continues φ' m m' (m₁.mapRoots k) (m₂.mapRoots k') :=
  ⟨continues.reported, continues.reported', continues.pairs⟩

theorem agree_modifyRoots (f f' : RootSet → RootSet) (mirrors : φ.Mirrors m.heap m'.heap)
    (same : f' (m.heap.roots.map φ.partner) = (f m.heap.roots).map φ.partner)
    (covered : ∀ x ∈ (f m.heap.roots).toList, φ.covers x) :
    φ.Agree m m' (fun _ _ φ' h' _ => φ' = φ ∧ h' = { m.heap with roots := f m.heap.roots })
      ((modifyRoots f).run m) ((modifyRoots f').run m') := by
  rw [run_modifyRoots, run_modifyRoots]
  exact .done (mirrors.mapRoots same covered) (continues_of_log rfl rfl) ⟨rfl, rfl⟩

theorem agree_protect (mirrors : φ.Mirrors m.heap m'.heap) (covered : φ.covers x) :
    φ.Agree m m' (fun _ _ φ' h' _ => φ' = φ ∧ h' = { m.heap with roots := m.heap.roots.protect x })
      ((protect x).run m) ((protect (φ.partner x)).run m') := by
  have same : (m.heap.roots.map φ.partner).protect (φ.partner x) = (m.heap.roots.protect x).map φ.partner := by
    simp [RootSet.protect, RootSet.map]
  refine agree_modifyRoots (·.protect x) (·.protect (φ.partner x)) mirrors same fun y root => ?_
  have cases : y ∈ m.heap.roots.toList ∨ y = x := by
    simpa [RootSet.toList, RootSet.protect, or_assoc] using root
  rcases cases with old | rfl
  · exact mirrors.covers_root old
  · exact covered

theorem Agree.guarded {body : HeapM α} {body' : HeapM β} (mirrors : φ.Mirrors m.heap m'.heap)
    (inner : φ.Mirrors (m.mapRoots RootSet.enter).heap (m'.mapRoots RootSet.enter).heap →
      φ.Agree (m.mapRoots RootSet.enter) (m'.mapRoots RootSet.enter) ends (body.run (m.mapRoots RootSet.enter)) (body'.run (m'.mapRoots RootSet.enter)))
    (leave : ∀ a b φ' h' g' roots roots', ends a b φ' h' g' →
      ends' a b φ' { h' with roots := roots } { g' with roots := roots' }) :
    φ.Agree m m' ends' ((guarded body).run m) ((guarded body').run m') := by
  have depth : m'.heap.roots.inFlight.length = m.heap.roots.inFlight.length := by
    rw [mirrors.roots]
    exact List.length_map _
  -- on leaving both heaps drop the same roots
  have left : ∀ {ψ : Pairing} {k k' : Machine}, ψ.Mirrors k.heap k'.heap →
      ψ.Mirrors (k.mapRoots fun r => r.leave m.heap.roots.inFlight.length).heap
        (k'.mapRoots fun r => r.leave m'.heap.roots.inFlight.length).heap := by
    intro ψ k k' mirrored
    refine mirrored.mapRoots ?_ fun y root => mirrored.covers_root ?_
    · rw [depth]
      simp [RootSet.leave, RootSet.map, List.map_take]
    · simp only [RootSet.toList, RootSet.leave, List.mem_append] at root ⊢
      exact root.imp_right List.mem_of_mem_take
  have entered := inner (mirrors.mapRoots rfl fun y root => mirrors.covers_root root)
  rw [run_guarded, run_guarded]
  generalize body.run (m.mapRoots RootSet.enter) = result at entered
  generalize body'.run (m'.mapRoots RootSet.enter) = result' at entered
  cases entered with
  | exhausted memory => exact .exhausted memory
  | exhausted' memory => exact .exhausted' memory
  | failed mirrored continues => exact .failed (left mirrored) continues.mapRoots
  | done mirrored continues holds => exact .done (left mirrored) continues.mapRoots (leave _ _ _ _ _ _ _ holds)

theorem agree_times {op op' : HeapM Unit} {inv : Pairing → Heap → Prop}
    (step : ∀ φ m m', φ.Mirrors m.heap m'.heap → inv φ m.heap → φ.Agree m m' (fun _ _ φ' h' _ => inv φ' h') (op.run m) (op'.run m'))
    (n : Nat) (mirrors : φ.Mirrors m.heap m'.heap) (start : inv φ m.heap) :
    φ.Agree m m' (fun _ _ φ' h' _ => inv φ' h') ((times n op).run m) ((times n op').run m') := by
  induction n generalizing φ m m' with
  | zero => exact agree_pure mirrors start
  | succ n ih => exact (step φ m m' mirrors start).bind fun _ _ _ _ _ mirrored holds => ih mirrored holds

/-! ### Allocation -/

/-- A new object in both heaps. -/
theorem agree_allocatePinned (p : Payload) (pins : List Handle) (mirrors : φ.Mirrors m.heap m'.heap) (refs : ∀ y ∈ p.refs, φ.covers y)
    (pinned : ∀ y ∈ pins, φ.covers y) (placeable : Placeable p m.heap) (placeable' : Placeable (p.map φ.partner) m'.heap) :
    φ.Agree m m'
      (fun x x' φ' h' _ => φ'.covers x ∧ φ'.partner x = x' ∧ φ.KeepsRooted m.heap φ' h' ∧
        ∀ y ∈ pins ++ p.refs, φ'.covers y ∧ φ'.partner y = φ.partner y)
      ((allocatePinned p pins).run m) ((allocatePinned (p.map φ.partner) (pins.map φ.partner)).run m') := by
  have ok := mirrors.sound.accounted
  have ok' := mirrors.sound'.accounted
  have takes : ∀ p pins, Takes Machine.NoCalls false false (allocatePinned p pins) := fun p pins =>
    takes_allocatePinned p pins fun never => by cases never
  have reported := (takes p pins m).reported
  have reported' := (takes (p.map φ.partner) (pins.map φ.partner) m').reported
  have elements : ∀ y ∈ pins ++ p.children, m.heap.Element y := fun y member =>
    (List.mem_append.1 member).elim (fun pin => (mirrors.element (pinned y pin)).1) (placeable.children y)
  have elements' : ∀ y ∈ pins.map φ.partner ++ (p.map φ.partner).children, m'.heap.Element y := by
    intro y member
    rcases List.mem_append.1 member with pin | child
    · obtain ⟨z, origin, rfl⟩ := List.mem_map.1 pin
      exact (mirrors.element (pinned z origin)).2
    · exact placeable'.children y child
  -- either heap may run out first, and then nothing is left to show
  obtain ⟨k, swept, ⟨e, m₁, failed, memory, -⟩ | ⟨x, m₁, made, entered⟩⟩ := allocatePinned_spec p pins ok
  · rw [failed]
    exact .exhausted memory
  obtain ⟨k', swept', ⟨e, m₂, failed, memory, -⟩ | ⟨x', m₂, made', entered'⟩⟩ :=
    allocatePinned_spec (p.map φ.partner) (pins.map φ.partner) ok'
  · rw [failed]
    exact .exhausted' memory
  rw [made] at reported
  rw [made'] at reported'
  rw [made, made']
  have between := mirrors.sound.swept elements swept
  have between' := mirrors.sound'.swept elements' swept'
  -- what the collections have left, if there were any
  have middle : (φ.within k k').Mirrors k k' :=
    mirrors.altered (swept.altered mirrors.sound elements fun _ => False)
      (swept'.altered mirrors.sound' elements' fun _ => False) (fun _ _ => Iff.rfl) fun _ _ none => none.elim
  have kept : ∀ y ∈ pins ++ p.refs, (φ.within k k').covers y := by
    intro y member
    have root : y ∈ m.heap.collectionRoots (pins ++ p.children) := by
      refine List.mem_append_right _ (List.mem_append.2 ((List.mem_append.1 member).imp_right fun ref => ?_))
      exact refs_subset_children p ref
    have root' : φ.partner y ∈ m'.heap.collectionRoots (pins.map φ.partner ++ (p.map φ.partner).children) := by
      refine List.mem_append_right _ (List.mem_append.2 ((List.mem_append.1 member).imp List.mem_map_of_mem fun ref => ?_))
      exact refs_subset_children _ (by rw [Payload.refs_map]; exact List.mem_map_of_mem ref)
    have covered : φ.covers y := (List.mem_append.1 member).elim (pinned y) (refs y)
    obtain ⟨here, there⟩ := mirrors.element covered
    exact ⟨covered, swept.element ok here (.start root), swept'.element ok' there (.start root')⟩
  have after := middle.entered entered entered' (fun y ref => kept y (List.mem_append_right _ ref)) placeable.list
    placeable.segment ((placeable.swept ok swept).sound between entered)
    ((placeable'.swept ok' swept').sound between' entered')
  have fresh : ∀ y, (φ.within k k').covers y → y ≠ x ∧ φ.partner y ≠ x' := by
    rintro y ⟨-, ⟨q, live, -⟩, q', live', -⟩
    refine ⟨?_, ?_⟩
    · rintro rfl
      rw [entered.fresh] at live
      cases live
    · intro same
      rw [same, entered'.fresh] at live'
      cases live'
  have old : ∀ y, (φ.within k k').covers y → ((φ.within k k').extend x x').covers y ∧
      ((φ.within k k').extend x x').partner y = φ.partner y :=
    fun y covered => ⟨.inr covered, extend_partner_of_ne (fresh y covered).1⟩
  refine .done after ⟨reported, reported', ?_⟩ ⟨.inl rfl, extend_partner_self _ _ _, ?_, fun y member => old y (kept y member)⟩
  · rintro y (rfl | covered)
    · rw [extend_partner_self]
      exact .inr ⟨(born_allocatePinned made).2 rfl, (born_allocatePinned made').2 rfl⟩
    · refine .inl ⟨covered.1, (old y covered).2, fun born => ?_, fun born => ?_⟩
      · exact (fresh y covered).1 ((born_allocatePinned made).1 born)
      · rw [(old y covered).2] at born
        exact (fresh y covered).2 ((born_allocatePinned made').1 born)
  · rintro y z ⟨covered, partner, rooted⟩
    have anchored : m.heap.Anchored y := ⟨rooted, (mirrors.element covered).1⟩
    have lasting := swept.anchored ok anchored
    obtain ⟨covered', partner'⟩ := old y
      ⟨covered, lasting.2, (swept'.anchored ok' (mirrors.anchored_partner covered rooted)).2⟩
    exact ⟨covered', partner'.trans partner, (entered.anchored lasting).1⟩

end Pairing

end ChunkHeap

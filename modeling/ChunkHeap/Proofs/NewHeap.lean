import ChunkHeap.Proofs.Accounting
import ChunkHeap.Proofs.Integrity

/-!
# New heaps

While a heap is being made its constants do not exist yet, so its roots are not
live. `Heap.Sprouting` holds instead: there is nothing but None and integers, and
those made so far are kept. Once all constants exist the heap is sound.
-/

namespace ChunkHeap
set_option autoImplicit false

open HeapM Heap

namespace Payload

/-- None or an integer. -/
def IsConstant : Payload → Prop
  | .none | .int _ => True
  | _ => False

theorem IsConstant.facts {p : Payload} (constant : p.IsConstant) :
    p.refs = [] ∧ p.storages = [] ∧ p.tag ≠ .seglist ∧ p.tag ≠ .segment := by
  cases p <;> simp [IsConstant, refs, storages, tag, children] at constant ⊢

end Payload

namespace Heap

variable {h g : Heap} {p : Payload} {x : Handle}

/-- A heap whose constants are being made. -/
structure Sprouting (h : Heap) : Prop where
  accounted : h.Accounted
  headed : h.Headed
  constant : ∀ x p, h.find? x = some p → p.IsConstant
  bare : h.roots.globals = none ∧ h.roots.stack = []
  kept : ∀ x ∈ h.roots.inFlight, ∃ p, h.find? x = some p

/-- Where all roots are live, nothing is missing. -/
theorem Sprouting.sound (sprouting : Sprouting h) (live : ∀ x ∈ h.collectionRoots [], ∃ p, h.find? x = some p) :
    h.Sound none := by
  have facts := fun x p found => (sprouting.constant x p found).facts
  have no_list : ∀ x r, h.find? x ≠ some (.seglist r) := fun x r found => (facts x _ found).2.2.1 rfl
  refine
    { accounted := sprouting.accounted, headed := sprouting.headed, refs := ?_, chains := ?_, disjoint := ?_, covered := ?_,
      roots := ?_, separate := ?_, stores := ?_, owner := ?_ }
  · intro x p found y member
    rw [(facts x p found).1] at member
    cases member
  · exact fun x r found => absurd found (no_list x r)
  · rintro x y c d ⟨r, found, -⟩
    exact absurd found (no_list x r)
  · exact fun s r found => absurd rfl (facts s _ found).2.2.2
  · intro x member
    obtain ⟨p, found⟩ := live x member
    exact ⟨p, found, (facts x p found).2.2.2⟩
  · intro x p found
    rw [(facts x p found).2.1]
    exact List.nodup_nil
  · intro x p found s member
    rw [(facts x p found).2.1] at member
    cases member
  · intro x y p q s found _ member
    rw [(facts x p found).2.1] at member
    cases member

theorem Sprouting.swept {pins : List Handle} (sprouting : Sprouting h) (swept : Swept pins h g) : Sprouting g := by
  have ok := sprouting.accounted
  have upkeep := swept.upkeep ok
  refine ⟨upkeep.accounted ok, upkeep.headed sprouting.headed, fun x p found => ?_, ?_, fun x member => ?_⟩
  · exact sprouting.constant x p (swept.of_find? ok found)
  · rw [upkeep.roots]
    exact sprouting.bare
  · rw [upkeep.roots] at member
    obtain ⟨p, found⟩ := sprouting.kept x member
    have root : x ∈ h.collectionRoots pins := by simp [collectionRoots, RootSet.toList, member]
    exact ⟨p, (swept.find? ok (.start root)).trans found⟩

theorem Sprouting.entered (sprouting : Sprouting h) (entered : Entered x p h g) (constant : p.IsConstant) : Sprouting g := by
  refine ⟨entered.accounted sprouting.accounted, entered.headed sprouting.headed, fun y q found => ?_, ?_, fun y member => ?_⟩
  · by_cases same : y = x
    · rw [same, entered.here] at found
      cases found
      exact constant
    · exact sprouting.constant y q ((entered.other same).symm.trans found)
  · rw [entered.roots]
    exact sprouting.bare
  · rw [entered.roots] at member
    obtain ⟨q, found⟩ := sprouting.kept y member
    exact ⟨q, (entered.live found).2⟩

end Heap

/-- Making one constant and protecting it. -/
theorem planted {β : Type} {p : Payload} {f : Handle → HeapM β} {m m' : Machine} {b : β} (sprouting : m.heap.Sprouting)
    (done : (do let x ← allocate p; protect x; f x).run m = (.ok b, m')) (constant : p.IsConstant) :
    ∃ x m₁, (f x).run m₁ = (.ok b, m') ∧ m₁.heap.Sprouting ∧ m₁.heap.roots.inFlight = m.heap.roots.inFlight ++ [x] ∧
      m₁.heap.find? x = some p ∧ ∀ y ∈ m.heap.roots.inFlight, m₁.heap.find? y = m.heap.find? y := by
  obtain ⟨g, swept, ⟨e, m₁, failed, -⟩ | ⟨x, m₁, made, entered⟩⟩ := allocatePinned_spec p [] sprouting.accounted
  · rw [allocate, run_bind_error failed] at done
    cases done
  · rw [allocate, run_bind_ok made] at done
    have grown := (sprouting.swept swept).entered entered constant
    have inFlight : m₁.heap.roots.inFlight = m.heap.roots.inFlight := by
      rw [entered.roots, (swept.upkeep sprouting.accounted).roots]
    refine ⟨x, m₁.mapRoots fun r => r.protect x, done, ?_, by rw [← inFlight]; rfl, entered.here, fun y member => ?_⟩
    · refine ⟨⟨grown.accounted.arena, grown.accounted.bytes⟩, grown.headed, grown.constant, grown.bare, fun y member => ?_⟩
      rcases List.mem_append.1 member with old | new
      · exact grown.kept y old
      · rw [List.mem_singleton.1 new]
        exact ⟨p, entered.here⟩
    · obtain ⟨q, found⟩ := sprouting.kept y member
      have root : y ∈ m.heap.collectionRoots ([] ++ p.children) := by simp [collectionRoots, RootSet.toList, member]
      have lasting := (swept.find? sprouting.accounted (.start root)).trans found
      exact (entered.live lasting).2.trans found.symm

/-- The constants are None, -1, 0 and 1. -/
structure Heap.Furnishes (h : Heap) (c : Constants) : Prop where
  none : h.find? c.none = some .none
  minusOne : h.find? c.minusOne = some (.int (-1))
  zero : h.find? c.zero = some (.int 0)
  one : h.find? c.one = some (.int 1)

/-- The four constants are made one after the other and kept. -/
theorem makeConstants_kept {m m' : Machine} {constants : Constants} (sprouting : m.heap.Sprouting)
    (done : makeConstants.run m = (.ok constants, m')) :
    m'.heap.Sprouting ∧ m'.heap.Furnishes constants := by
  obtain ⟨none, m₁, done, sprouting, kept₁, found₁, -⟩ := planted sprouting done trivial
  obtain ⟨minusOne, m₂, done, sprouting, kept₂, found₂, same₂⟩ := planted sprouting done trivial
  obtain ⟨zero, m₃, done, sprouting, kept₃, found₃, same₃⟩ := planted sprouting done trivial
  obtain ⟨one, m₄, done, sprouting, kept₄, found₄, same₄⟩ := planted sprouting done trivial
  cases done
  -- each is among the objects under construction while the later ones are made
  rw [kept₁] at kept₂ same₂
  rw [kept₂] at kept₃ same₃
  rw [kept₃] at same₄
  refine ⟨sprouting, ?_, ?_, ?_, found₄⟩
  · rw [same₄ none (by simp), same₃ none (by simp), same₂ none (by simp), found₁]
  · rw [same₄ minusOne (by simp), same₃ minusOne (by simp), found₂]
  · rw [same₄ zero (by simp), found₃]

/-- What making a heap comes to: its constants are made in one construction. -/
theorem Machine.create_made {config : HeapConfig} {m : Machine} (made : Machine.create config = (.ok (), m)) :
    ∃ constants m', (guarded makeConstants).run { heap := Heap.blank config } = (.ok constants, m') ∧
      m.heap = { m'.heap with constants := constants } := by
  rw [Machine.create, boot, run_bind, run_inspect] at made
  cases valid : (Heap.blank config).config.validate with
  | error e =>
    rw [valid] at made
    cases made
  | ok _ =>
    rw [valid] at made
    simp only [run_bind] at made
    rcases outcome : (guarded makeConstants).run { heap := Heap.blank config } with ⟨e | constants, m'⟩
    · rw [outcome] at made
      cases made
    · rw [outcome] at made
      cases made
      exact ⟨constants, m', rfl, rfl⟩

/-- A new heap is sound and holds its constants, and nothing is under construction. -/
theorem Machine.create_furnished {config : HeapConfig} {m : Machine} (made : Machine.create config = (.ok (), m)) :
    m.heap.Sound none ∧ m.heap.roots.inFlight = [] ∧ m.heap.Furnishes m.heap.constants := by
  have start : (Machine.mapRoots { heap := Heap.blank config } RootSet.enter).heap.Sprouting := by
    have empty : ∀ x p, (Heap.blank config).find? x ≠ some p := by
      intro x p found
      simp [Heap.find?, Heap.blank, Arena.get?] at found
    refine ⟨⟨(Balanced.blank config).accounted.arena, rfl⟩, ?_, fun x p found => absurd found (empty x p), ⟨rfl, rfl⟩, ?_⟩
    · intro x o found
      exact absurd (find?_eq_some_iff.2 ⟨o, found, rfl⟩) (empty x _)
    · intro x member
      cases member
  obtain ⟨constants, m', ran, heap⟩ := Machine.create_made made
  rw [run_guarded] at ran
  rcases outcome : makeConstants.run (Machine.mapRoots { heap := Heap.blank config } RootSet.enter) with ⟨e | _, m₁⟩
  · rw [outcome] at ran
    cases ran
  · rw [outcome] at ran
    cases ran
    rw [heap]
    obtain ⟨sprouting, none, minusOne, zero, one⟩ := makeConstants_kept start outcome
    refine ⟨Sprouting.sound ⟨⟨sprouting.accounted.arena, sprouting.accounted.bytes⟩, sprouting.headed, sprouting.constant,
      sprouting.bare, fun x member => ?_⟩ fun x member => ?_, rfl, ⟨none, minusOne, zero, one⟩⟩
    · cases member
    · have constant : x ∈ constants.toList := by
        simpa [collectionRoots, RootSet.toList, RootSet.leave, Machine.mapRoots, sprouting.bare, Heap.blank] using member
      simp only [Constants.toList, List.mem_cons, List.not_mem_nil, or_false] at constant
      rcases constant with rfl | rfl | rfl | rfl
      · exact ⟨_, none⟩
      · exact ⟨_, minusOne⟩
      · exact ⟨_, zero⟩
      · exact ⟨_, one⟩

/-- A new heap is sound, and nothing is under construction. -/
theorem Machine.create_sound {config : HeapConfig} {m : Machine} (made : Machine.create config = (.ok (), m)) :
    m.heap.Sound none ∧ m.heap.roots.inFlight = [] :=
  ⟨(create_furnished made).1, (create_furnished made).2.1⟩

end ChunkHeap

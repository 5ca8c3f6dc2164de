import ChunkHeap.Proofs.Chain.Layout

/-!
# Conditions on the calls of a run, by one evaluation

Results about calls made one after the other ask something of each call when its
turn comes. `passes next test` walks a run and tests every call in the state it is
made in. One evaluation of it gives whatever holds of a run as soon as the first
call passes the test and the rest of the run has the same property (`of_passes`).

What is asked most often is `Heap.serves`: the containers are roots, and what is to
be stored is live.
-/

namespace ChunkHeap
set_option autoImplicit false

section Passes

variable {σ α : Type} {next : α → σ → σ} {test : α → σ → Bool} {calls : List α} {s : σ}

/-- Whether every call passes the test in the state that the calls before it lead to. -/
def passes (next : α → σ → σ) (test : α → σ → Bool) : List α → σ → Bool
  | [], _ => true
  | call :: rest, s => test call s && passes next test rest (next call s)

theorem of_passes {P : List α → σ → Prop} (nil : ∀ s, P [] s)
    (cons : ∀ call rest s, test call s = true → P rest (next call s) → P (call :: rest) s)
    (passed : passes next test calls s = true) : P calls s := by
  induction calls generalizing s with
  | nil => exact nil s
  | cons call rest ih =>
    rw [passes, Bool.and_eq_true] at passed
    exact cons call rest s passed.1 (ih passed.2)

end Passes

/-- Whether a reading succeeds. -/
instance decidableSucceeds {ε α : Type} : (e : Except ε α) → Decidable (∃ a, e = .ok a)
  | .ok a => .isTrue ⟨a, rfl⟩
  | .error _ => .isFalse nofun

namespace Heap

/-- Whether the containers are roots, and what is to be stored is live. -/
def serves (h : Heap) (containers stored : List Handle) : Bool :=
  decide ((∀ x ∈ containers, x ∈ h.collectionRoots []) ∧ ∀ x ∈ stored, h.Element x)

theorem serves_spec {h : Heap} {containers stored : List Handle} (served : h.serves containers stored = true) :
    (∀ x ∈ containers, h.Rooted x) ∧ ∀ x ∈ stored, h.Element x := by
  obtain ⟨roots, live⟩ := of_decide_eq_true served
  exact ⟨fun x member => .start (roots x member), live⟩

end Heap

end ChunkHeap

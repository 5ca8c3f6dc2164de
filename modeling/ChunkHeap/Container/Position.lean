import ChunkHeap.Error

/-!
# Positions in a sequence

An index counts from the front, or from the end when it is negative. Lengths are
machine words: as a signed number, a length of `2 ^ 63` or more is negative
(`signedWord`); shorter ones keep their value (`signedWord_of_lt`).
-/

namespace ChunkHeap
set_option autoImplicit false

namespace Position

/-- A word read as a signed number. -/
def signedWord (n : Nat) : Int :=
  Int.bmod n (1 <<< 64)

theorem signedWord_of_lt {n : Nat} (h : n < 1 <<< 63) : signedWord n = n := by
  unfold signedWord
  rw [Int.bmod_eq_of_le] <;> omega

theorem signedWord_le (n : Nat) : signedWord n ≤ n := by
  have bounded : ∀ word : Nat, Int.bmod n word ≤ n := by
    intro word
    have small : (n : Int) % word ≤ n := by
      rw [← Int.natCast_emod]
      exact Int.ofNat_le.2 (Nat.mod_le n word)
    rw [Int.bmod_def]
    split <;> omega
  exact bounded _

/-- A position counted from the front. -/
def normalize (index : Int) (length : Nat) : Int :=
  if index < 0 then index + signedWord length else index

/-- The element an index names, if there is one. -/
def element? (index : Int) (length : Nat) : Option Nat :=
  let i := normalize index length
  if 0 ≤ i ∧ i.toNat < length then some i.toNat else none

theorem element?_lt {index : Int} {length i : Nat} (named : element? index length = some i) : i < length := by
  simp only [element?] at named
  split at named
  · rename_i inside
    cases named
    exact inside.2
  · cases named

/-- The position nearest to an index among those from `low` to `length`. -/
def clamp (index : Int) (low length : Nat) : Nat :=
  (max (low : Int) (min (normalize index length) (signedWord length))).toNat

/-- The step of a slice: a positive number. -/
def checkStep (step : Int) : Except Error Nat :=
  if step = 0 then .error .zeroStep
  else if step < 0 then .error .negativeStep
  else .ok step.toNat

/-- How many positions `start`, `start + step`, … lie below `stop`. -/
def stepCount (start stop step : Nat) : Nat :=
  (stop - start + (step - 1)) / step

/-- An index that counts from the end names the same element as the one that
counts from the front. -/
theorem element?_sub_length {i length : Nat} (hl : length < 1 <<< 63) (hi : i < length) :
    element? ((i : Int) - length) length = some i := by
  have hneg : ((i : Int) - length) < 0 := by omega
  simp only [element?, normalize, if_pos hneg, signedWord_of_lt hl]
  have : ((i : Int) - length + length) = i := by omega
  rw [this]
  simp [hi]

/-- A position that has been clamped lies in the sequence, whatever the length. -/
theorem clamp_le (index : Int) {low length : Nat} (h : low ≤ length) : clamp index low length ≤ length := by
  have := signedWord_le length
  simp only [clamp]
  omega

theorem le_clamp (index : Int) (low length : Nat) : low ≤ clamp index low length := by
  simp only [clamp]
  omega

end Position

end ChunkHeap

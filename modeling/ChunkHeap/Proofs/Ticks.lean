import ChunkHeap.Device.Ticks
import Mathlib.Data.Nat.ModEq

/-!
# The time on a counter

A counter shows a time in microseconds, `TickCounter.reading`; its milliseconds wrap
at the end of a word, so this is a time modulo `1000 * 2 ^ 32`. A report moves it on
by the microseconds reported, with one exception. The report is added to the remainder
within one word. When that overflows, the carry is lost, and `2 ^ 32` microseconds
with it (`TickCounter.reading_periodic`).

Over a run of reports the counter falls behind by a word for each one that overflows
(`TickCounter.reading_foldl`). A thousand of these are a whole turn, so it shows what
was reported if their number is a multiple of a thousand and not otherwise
(`TickCounter.behind_by_overflows`). Only reports within a millisecond of the end of a
word can overflow (`TickCounter.overflows_eq_zero`).
-/

namespace ChunkHeap
set_option autoImplicit false

namespace TickCounter

/-- The counter after a run of reports. -/
def after (reports : List UInt32) : TickCounter :=
  reports.foldl periodic {}

/-- The microseconds of a run of reports. -/
def reported (reports : List UInt32) : Nat :=
  (reports.map UInt32.toNat).sum

/-- What is carried out of the word when a report is added to the remainder. -/
def carry (t : TickCounter) (usec : UInt32) : Nat :=
  if 2 ^ 32 ≤ t.usec.toNat + usec.toNat then 1 else 0

/-- How many of the reports overflow. -/
def overflows : TickCounter → List UInt32 → Nat
  | _, [] => 0
  | t, usec :: reports => t.carry usec + overflows (t.periodic usec) reports

/-- The time on the counter, in microseconds. -/
def reading (t : TickCounter) : Nat :=
  1000 * t.ms.toNat + t.usec.toNat

/-- Less than a millisecond remains. -/
def Settled (t : TickCounter) : Prop :=
  t.usec.toNat < 1000

/-- The counter shows `time` microseconds, up to whole turns of the milliseconds. -/
def Shows (t : TickCounter) (time : Nat) : Prop :=
  t.ms.toNat = time / 1000 % 2 ^ 32 ∧ t.usec.toNat = time % 1000

instance Shows.decidable (t : TickCounter) (time : Nat) : Decidable (t.Shows time) :=
  inferInstanceAs (Decidable (_ ∧ _))

variable {t : TickCounter}

theorem settled_new : Settled {} := by
  unfold Settled
  decide

/-! ### One report -/

theorem toNat_usec_periodic (t : TickCounter) (usec : UInt32) :
    (t.periodic usec).usec.toNat = (t.usec.toNat + usec.toNat) % 2 ^ 32 % 1000 := by
  simp [periodic]

theorem toNat_ms_periodic (t : TickCounter) (usec : UInt32) :
    (t.periodic usec).ms.toNat = (t.ms.toNat + (t.usec.toNat + usec.toNat) % 2 ^ 32 / 1000) % 2 ^ 32 := by
  simp [periodic]

theorem settled_periodic (t : TickCounter) (usec : UInt32) : (t.periodic usec).Settled := by
  rw [Settled, toNat_usec_periodic]
  exact Nat.mod_lt _ (by decide)

/-- Remainder and report are what stays in the word, and the carry. -/
theorem mod_add_carry (t : TickCounter) (usec : UInt32) :
    (t.usec.toNat + usec.toNat) % 2 ^ 32 + 2 ^ 32 * t.carry usec = t.usec.toNat + usec.toNat := by
  have remainder := t.usec.toNat_lt
  have report := usec.toNat_lt
  unfold carry
  split <;> omega

/-- A report counts in full but for the carry. -/
theorem reading_periodic (t : TickCounter) (usec : UInt32) :
    (t.periodic usec).reading + 2 ^ 32 * t.carry usec ≡ t.reading + usec.toNat [MOD 1000 * 2 ^ 32] := by
  have split := t.mod_add_carry usec
  set kept := (t.usec.toNat + usec.toNat) % 2 ^ 32 with kept_eq
  have wraps : 1000 * ((t.ms.toNat + kept / 1000) % 2 ^ 32) ≡ 1000 * (t.ms.toNat + kept / 1000) [MOD 1000 * 2 ^ 32] :=
    (Nat.mod_modEq _ _).mul_left' 1000
  calc (t.periodic usec).reading + 2 ^ 32 * t.carry usec
      = 1000 * ((t.ms.toNat + kept / 1000) % 2 ^ 32) + (kept % 1000 + 2 ^ 32 * t.carry usec) := by
        rw [reading, toNat_ms_periodic, toNat_usec_periodic, Nat.add_assoc]
    _ ≡ 1000 * (t.ms.toNat + kept / 1000) + (kept % 1000 + 2 ^ 32 * t.carry usec) [MOD 1000 * 2 ^ 32] :=
        wraps.add_right _
    _ = t.reading + usec.toNat := by
        rw [reading]
        omega

/-! ### A run of reports -/

theorem settled_foldl (settled : t.Settled) (reports : List UInt32) : (reports.foldl periodic t).Settled := by
  induction reports generalizing t with
  | nil => exact settled
  | cons usec reports ih => exact ih (t.settled_periodic usec)

/-- The counter falls behind by a word for each report that overflows. -/
theorem reading_foldl (t : TickCounter) (reports : List UInt32) :
    (reports.foldl periodic t).reading + 2 ^ 32 * overflows t reports ≡ t.reading + reported reports
      [MOD 1000 * 2 ^ 32] := by
  induction reports generalizing t with
  | nil => exact Nat.ModEq.refl _
  | cons usec reports ih =>
    calc (reports.foldl periodic (t.periodic usec)).reading + 2 ^ 32 * (t.carry usec + overflows (t.periodic usec) reports)
        = (reports.foldl periodic (t.periodic usec)).reading + 2 ^ 32 * overflows (t.periodic usec) reports +
            2 ^ 32 * t.carry usec := by omega
      _ ≡ (t.periodic usec).reading + reported reports + 2 ^ 32 * t.carry usec [MOD 1000 * 2 ^ 32] :=
          (ih (t.periodic usec)).add_right _
      _ = (t.periodic usec).reading + 2 ^ 32 * t.carry usec + reported reports := by omega
      _ ≡ t.reading + usec.toNat + reported reports [MOD 1000 * 2 ^ 32] := (t.reading_periodic usec).add_right _
      _ = t.reading + reported (usec :: reports) := by simp [reported, Nat.add_assoc]

/-- No more is lost than there was. -/
theorem overflows_le (t : TickCounter) (reports : List UInt32) :
    2 ^ 32 * overflows t reports ≤ t.usec.toNat + reported reports := by
  induction reports generalizing t with
  | nil => exact Nat.zero_le _
  | cons usec reports ih =>
    have later := ih (t.periodic usec)
    have split := t.mod_add_carry usec
    have less : (t.periodic usec).usec.toNat ≤ (t.usec.toNat + usec.toNat) % 2 ^ 32 := by
      rw [toNat_usec_periodic]
      exact Nat.mod_le _ _
    have total : reported (usec :: reports) = usec.toNat + reported reports := by simp [reported]
    rw [overflows, total]
    omega

/-- Reports that leave room for a remainder do not overflow. -/
theorem overflows_eq_zero (settled : t.Settled) {reports : List UInt32} (room : ∀ usec ∈ reports, usec.toNat ≤ 2 ^ 32 - 1000) :
    overflows t reports = 0 := by
  induction reports generalizing t with
  | nil => rfl
  | cons usec reports ih =>
    have remainder : t.usec.toNat < 1000 := settled
    have report := room usec List.mem_cons_self
    have fits : t.carry usec = 0 := if_neg (by omega)
    rw [overflows, fits, ih (t.settled_periodic usec) fun later member => room later (List.mem_cons_of_mem _ member)]

/-! ### What the counter shows -/

theorem Settled.reading_lt (settled : t.Settled) : t.reading < 1000 * 2 ^ 32 := by
  have ms := t.ms.toNat_lt
  have usec : t.usec.toNat < 1000 := settled
  rw [reading]
  omega

theorem Settled.shows_iff (settled : t.Settled) (time : Nat) : t.Shows time ↔ t.reading ≡ time [MOD 1000 * 2 ^ 32] := by
  have usec : t.usec.toNat < 1000 := settled
  rw [Nat.ModEq, Nat.mod_eq_of_lt settled.reading_lt, Nat.mod_mul, Shows, reading]
  omega

/-- **The counter falls behind by a word at each overflow.** It shows the time that was
reported exactly if these make up whole turns, so after reports that leave room for a
remainder. -/
theorem behind_by_overflows (reports : List UInt32) :
    2 ^ 32 * overflows {} reports ≤ reported reports ∧
    (after reports).Shows (reported reports - 2 ^ 32 * overflows {} reports) ∧
    ((after reports).Shows (reported reports) ↔ 1000 ∣ overflows {} reports) ∧
    ((∀ usec ∈ reports, usec.toNat ≤ 2 ^ 32 - 1000) → (after reports).Shows (reported reports)) := by
  have settled : (after reports).Settled := settled_foldl settled_new reports
  have lost : 2 ^ 32 * overflows {} reports ≤ reported reports := by
    simpa using overflows_le {} reports
  have runs : (after reports).reading + 2 ^ 32 * overflows {} reports ≡ reported reports [MOD 1000 * 2 ^ 32] := by
    have counted := reading_foldl {} reports
    rwa [show reading {} = 0 from rfl, Nat.zero_add] at counted
  have turns : 2 ^ 32 * overflows {} reports ≡ 0 [MOD 1000 * 2 ^ 32] ↔ 1000 ∣ overflows {} reports := by
    rw [Nat.modEq_zero_iff_dvd, Nat.mul_comm 1000, Nat.mul_dvd_mul_iff_left (by decide)]
  have right : (after reports).Shows (reported reports) ↔ 1000 ∣ overflows {} reports := by
    rw [settled.shows_iff, ← turns]
    constructor
    · intro shown
      exact Nat.ModEq.add_left_cancel' _ (runs.trans shown.symm)
    · intro whole
      exact (whole.add_left _).symm.trans runs
  refine ⟨lost, ?_, right, ?_⟩
  · rw [settled.shows_iff]
    apply Nat.ModEq.add_right_cancel' (2 ^ 32 * overflows {} reports)
    rwa [Nat.sub_add_cancel lost]
  · intro room
    rw [right, overflows_eq_zero settled_new room]
    exact Nat.dvd_zero 1000

/-- Seventy-one minutes are lost when a report of them meets a remainder. -/
theorem after_loses_carry : after [1, 4294967295] = { usec := 0, ms := 0 } ∧
    reported [1, 4294967295] / 1000 % 2 ^ 32 = 4294967 ∧ reported [1, 4294967295] % 1000 = 296 ∧
    ¬ (after [1, 4294967295]).Shows (reported [1, 4294967295]) := by
  decide

end TickCounter

end ChunkHeap

import ChunkHeap.Payload
import Mathlib.Data.List.Basic

/-!
# Packed blocks

The segments of a segmented list cut its contents into blocks: all are full but
the last, and the last is not empty. `Packed.split` finds the block that holds a
position; everything said about a position of the contents follows from that
cut, since the blocks in front of it are full.
-/

namespace ChunkHeap
set_option autoImplicit false

theorem segmentCapacity_eq : segmentCapacity = 8 := rfl

/-- Every block is full. -/
def AllFull (bs : List (List Handle)) : Prop :=
  ∀ b ∈ bs, b.length = segmentCapacity

/-- Every block but the last is full, and the last holds something. -/
def Packed : List (List Handle) → Prop
  | [] => True
  | [b] => 0 < b.length ∧ b.length ≤ segmentCapacity
  | b :: c :: rest => b.length = segmentCapacity ∧ Packed (c :: rest)

theorem AllFull.length_flatten {bs : List (List Handle)} (full : AllFull bs) :
    bs.flatten.length = segmentCapacity * bs.length := by
  induction bs with
  | nil => rfl
  | cons b rest ih =>
    have head := full b List.mem_cons_self
    have tail := ih fun c member => full c (List.mem_cons_of_mem b member)
    rw [List.flatten_cons, List.length_append, List.length_cons, Nat.mul_add, head, tail]
    omega

theorem AllFull.append {as bs : List (List Handle)} (left : AllFull as) (right : AllFull bs) : AllFull (as ++ bs) := by
  intro b member
  rcases List.mem_append.1 member with inside | inside
  · exact left b inside
  · exact right b inside

/-- Full blocks in front of a nonempty packing keep it packed, and conversely. -/
theorem packed_append_iff {as bs : List (List Handle)} (some_ : bs ≠ []) :
    Packed (as ++ bs) ↔ AllFull as ∧ Packed bs := by
  induction as with
  | nil => simp [AllFull]
  | cons a rest ih =>
    obtain ⟨c, tail, split⟩ := List.exists_cons_of_ne_nil (l := rest ++ bs) (by simp [some_])
    rw [List.cons_append, split, Packed, ← split, ih]
    simp only [AllFull, List.mem_cons, forall_eq_or_imp, and_assoc]

theorem packed_snoc_iff {bs : List (List Handle)} {b : List Handle} :
    Packed (bs ++ [b]) ↔ AllFull bs ∧ 0 < b.length ∧ b.length ≤ segmentCapacity :=
  packed_append_iff (by simp)

theorem AllFull.packed {bs : List (List Handle)} (full : AllFull bs) : Packed bs := by
  rcases List.eq_nil_or_concat' bs with rfl | ⟨front, last, rfl⟩
  · trivial
  · have size := full last (by simp)
    refine packed_snoc_iff.2 ⟨fun b member => full b (by simp [member]), ?_, Nat.le_of_eq size⟩
    rw [size]
    decide

/-- Only the sizes of the blocks matter. -/
theorem Packed.congr {as bs : List (List Handle)} (packed : Packed as)
    (same : as.map List.length = bs.map List.length) : Packed bs := by
  induction as generalizing bs with
  | nil =>
    obtain rfl : bs = [] := by simpa using same.symm
    trivial
  | cons a rest ih =>
    obtain ⟨b, tail, rfl, size, later⟩ := List.map_eq_cons_iff.1 same.symm
    cases rest with
    | nil =>
      obtain rfl : tail = [] := by simpa using later
      rw [Packed, size]
      exact packed
    | cons c rest =>
      obtain ⟨d, tail, rfl, -, -⟩ := List.map_eq_cons_iff.1 later
      exact ⟨size.trans packed.1, ih packed.2 later.symm⟩

/-- The block that holds position `i` of the contents: it has number
`i / segmentCapacity`, and the blocks before it are full. -/
theorem Packed.split {bs : List (List Handle)} (packed : Packed bs) {i : Nat} (inside : i < bs.flatten.length) :
    ∃ front b back, bs = front ++ b :: back ∧ AllFull front ∧ front.length = i / segmentCapacity ∧
      i % segmentCapacity < b.length := by
  induction bs generalizing i with
  | nil => simp at inside
  | cons b rest ih =>
    by_cases here : i < b.length
    · have small : i < segmentCapacity := by
        cases rest with
        | nil => exact Nat.lt_of_lt_of_le here packed.2
        | cons c rest => exact Nat.lt_of_lt_of_eq here packed.1
      refine ⟨[], b, rest, rfl, by simp [AllFull], ?_, ?_⟩
      · rw [Nat.div_eq_of_lt small]
        rfl
      · rwa [Nat.mod_eq_of_lt small]
    · cases rest with
      | nil => simp at inside; omega
      | cons c rest =>
        obtain ⟨full, packed⟩ := packed
        have later : i - segmentCapacity < (c :: rest).flatten.length := by
          rw [List.flatten_cons, List.length_append] at inside
          omega
        obtain ⟨front, d, back, split, filled, count, offset⟩ := ih packed later
        refine ⟨b :: front, d, back, by rw [split]; rfl, ?_, ?_, ?_⟩
        · intro e member
          rcases List.mem_cons.1 member with rfl | member
          · exact full
          · exact filled e member
        · simp only [List.length_cons, count, segmentCapacity_eq] at full ⊢
          omega
        · simp only [segmentCapacity_eq] at full offset ⊢
          omega

/-- As many blocks as the contents need. -/
theorem Packed.length_eq {bs : List (List Handle)} (packed : Packed bs) :
    bs.length = (bs.flatten.length + (segmentCapacity - 1)) / segmentCapacity := by
  rcases List.eq_nil_or_concat' bs with rfl | ⟨front, last, rfl⟩
  · rfl
  · obtain ⟨full, some_, most⟩ := packed_snoc_iff.1 packed
    have size := full.length_flatten
    simp only [List.flatten_append, List.flatten_singleton, List.length_append, List.length_singleton,
      segmentCapacity_eq] at size most ⊢
    omega

/-- The last block is full just when the contents fill whole blocks. -/
theorem Packed.last_full_iff {front : List (List Handle)} {last : List Handle} (packed : Packed (front ++ [last])) :
    last.length = segmentCapacity ↔ (front ++ [last]).flatten.length % segmentCapacity = 0 := by
  obtain ⟨full, some_, most⟩ := packed_snoc_iff.1 packed
  have size := full.length_flatten
  simp only [List.flatten_append, List.flatten_singleton, List.length_append, segmentCapacity_eq] at size most ⊢
  omega

/-! ### Positions across a cut -/

theorem insertIdx_append_left {l m : List Handle} {i : Nat} {x : Handle} (inside : i ≤ l.length) :
    (l ++ m).insertIdx i x = l.insertIdx i x ++ m := by
  induction l generalizing i with
  | nil =>
    obtain rfl : i = 0 := by simpa using inside
    rfl
  | cons y rest ih =>
    cases i with
    | zero => rfl
    | succ i =>
      have tail := ih (i := i) (by simpa using inside)
      simp only [List.cons_append, List.insertIdx_succ_cons, tail]

theorem insertIdx_append_right {l m : List Handle} {i : Nat} {x : Handle} :
    (l ++ m).insertIdx (l.length + i) x = l ++ m.insertIdx i x := by
  induction l with
  | nil => simp
  | cons y rest ih =>
    rw [List.length_cons, show rest.length + 1 + i = (rest.length + i) + 1 by omega, List.cons_append,
      List.insertIdx_succ_cons, ih]
    rfl

/-- An insertion into a full block pushes its last reference out, and the block is
full again. -/
theorem overflow_of_full {b : List Handle} {i : Nat} {x : Handle} (full : b.length = segmentCapacity)
    (inside : i < b.length) :
    ∃ last, b.getLast? = some last ∧ b.insertIdx i x = b.dropLast.insertIdx i x ++ [last] ∧
      (b.dropLast.insertIdx i x).length = segmentCapacity := by
  have nonempty : b ≠ [] := by
    rintro rfl
    simp at inside
  have short : i ≤ b.dropLast.length := by
    rw [List.length_dropLast]
    omega
  refine ⟨b.getLast nonempty, List.getLast?_eq_some_getLast nonempty, ?_, ?_⟩
  · rw [← insertIdx_append_left short, List.dropLast_append_getLast]
  · rw [List.length_insertIdx_of_le_length short, List.length_dropLast]
    omega

end ChunkHeap

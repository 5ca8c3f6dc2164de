import ChunkHeap.Native
import Mathlib.Algebra.Ring.Nat

/-!
# The indices of native functions

A table keeps its functions in the order of their registration, after the
placeholder (`NativeTable.entries_holding`), and a later registration moves none of
them. A call therefore runs what stands at its index, or fails when nothing does
(`NativeTable.runs_entry`, `NativeTable.fails_of_beyond`).

The index handed out is the low word of the position. It finds the function for as
long as positions fit into a word. From the registration on that fills position
`2 ^ 16` the index is the placeholder's or that of an earlier function
(`NativeTable.index_taken`), and that is what a call with it runs
(`NativeTable.honoured_below_word`).
-/

namespace ChunkHeap
set_option autoImplicit false

open HeapM

namespace NativeTable

/-- Register functions in order: the indices they got, and the table. -/
def registerAll (t : NativeTable) : List NativeFn → List UInt16 × NativeTable
  | [] => ([], t)
  | f :: fs => ((t.register f).1 :: ((t.register f).2.registerAll fs).1, ((t.register f).2.registerAll fs).2)

/-- The indices a new table hands out to functions registered in order. -/
def indices (fs : List NativeFn) : List UInt16 :=
  (empty.registerAll fs).1

/-- A new table with functions registered in order. -/
def holding (fs : List NativeFn) : NativeTable :=
  (empty.registerAll fs).2

/-- A call with the index is reported and runs `f`. -/
def Runs (t : NativeTable) (index : UInt16) (f : NativeFn) : Prop :=
  ∀ args m, (t.call index args).run m =
    (f args).run { m with log := m.log.push (.nativeCall index.toNat args.length) }

/-- A call with the index is a system error and leaves the heap as it is. -/
def Fails (t : NativeTable) (index : UInt16) : Prop :=
  ∀ args m, ∃ e m', (t.call index args).run m = (.error e, m') ∧ e.kind = .system ∧ m'.heap = m.heap

/-- The index of `f`, registered after `before`, is neither the placeholder's nor
that of a function before, and finds `f` whatever is registered later. -/
structure Honoured (before : List NativeFn) (f : NativeFn) : Prop where
  reserved : ((holding before).register f).1 ≠ 0
  fresh : ((holding before).register f).1 ∉ indices before
  runs : ∀ later, (holding (before ++ f :: later)).Runs ((holding before).register f).1 f

variable {t : NativeTable} {fs before : List NativeFn} {f : NativeFn} {index : UInt16}

/-! ### What stands where -/

theorem entries_registerAll (t : NativeTable) (fs : List NativeFn) :
    (t.registerAll fs).2.entries.toList = t.entries.toList ++ fs := by
  induction fs generalizing t with
  | nil => simp [registerAll]
  | cons f fs ih =>
    rw [registerAll, ih]
    simp [register]

theorem entries_holding (fs : List NativeFn) : (holding fs).entries.toList = placeholder :: fs :=
  entries_registerAll empty fs

theorem size_holding (fs : List NativeFn) : (holding fs).entries.size = fs.length + 1 := by
  rw [← Array.length_toList, entries_holding, List.length_cons]

theorem index_eq (before : List NativeFn) (f : NativeFn) :
    ((holding before).register f).1 = UInt16.ofNat (before.length + 1) := by
  rw [register, size_holding]

theorem toNat_index (before : List NativeFn) (f : NativeFn) :
    ((holding before).register f).1.toNat = (before.length + 1) % 2 ^ 16 := by
  rw [index_eq, UInt16.toNat_ofNat']

/-- The indices of functions registered in order are the low words of consecutive positions. -/
theorem mem_registerAll_iff :
    index ∈ (t.registerAll fs).1 ↔ ∃ i < fs.length, UInt16.ofNat (t.entries.size + i) = index := by
  induction fs generalizing t with
  | nil => simp [registerAll]
  | cons f fs ih =>
    have size : (t.register f).2.entries.size = t.entries.size + 1 := by simp [register]
    rw [registerAll, List.mem_cons, ih, size]
    constructor
    · rintro (rfl | ⟨i, bound, rfl⟩)
      · exact ⟨0, by simp, rfl⟩
      · exact ⟨i + 1, by simpa using bound, by congr 1; omega⟩
    · rintro ⟨i, bound, rfl⟩
      cases i with
      | zero => exact .inl rfl
      | succ i => exact .inr ⟨i, by simpa using bound, by congr 1; omega⟩

theorem mem_indices_iff : index ∈ indices fs ↔ ∃ i < fs.length, (i + 1) % 2 ^ 16 = index.toNat := by
  rw [indices, mem_registerAll_iff]
  refine exists_congr fun i => and_congr_right fun _ => ?_
  rw [← UInt16.toNat_inj, UInt16.toNat_ofNat', show empty.entries.size = 1 from rfl, Nat.add_comm]

/-! ### What a call runs -/

/-- A call runs what stands at its index. -/
theorem runs_entry (stands : (placeholder :: fs)[index.toNat]? = some f) : (holding fs).Runs index f := by
  intro args m
  rw [← entries_holding, Array.getElem?_toList] at stands
  rw [call, stands]
  rfl

theorem fails_of_runs_placeholder (runs : t.Runs index placeholder) : t.Fails index :=
  fun args m => ⟨.nativePlaceholder, _, runs args m, rfl, rfl⟩

theorem fails_of_beyond (beyond : fs.length < index.toNat) : (holding fs).Fails index := by
  intro args m
  refine ⟨.nativeRange, m, ?_, rfl, rfl⟩
  rw [call, Array.getElem?_eq_none (by rw [size_holding]; omega)]
  rfl

/-- Index 0 and the indices not handed out lead to no function. -/
theorem fails_of_not_mem (other : index = 0 ∨ index ∉ indices fs) : (holding fs).Fails index := by
  by_cases zero : index = 0
  · subst zero
    exact fails_of_runs_placeholder (runs_entry rfl)
  · have positive : 0 < index.toNat := by
      rw [Nat.pos_iff_ne_zero]
      exact fun equal => zero (UInt16.toNat_inj.1 equal)
    have unknown := other.resolve_left zero
    rw [mem_indices_iff] at unknown
    apply fails_of_beyond
    by_contra within
    have word := index.toNat_lt
    exact unknown ⟨index.toNat - 1, by omega, by rw [Nat.sub_add_cancel positive, Nat.mod_eq_of_lt word]⟩

/-! ### The end of the word -/

/-- Below the end of the word an index is new. -/
theorem index_fresh (room : before.length + 1 < 2 ^ 16) : ((holding before).register f).1 ∉ indices before := by
  rw [mem_indices_iff, toNat_index]
  rintro ⟨i, bound, same⟩
  omega

/-- Beyond it, an index is the placeholder's or was handed out before. -/
theorem index_taken (full : 2 ^ 16 ≤ before.length + 1) :
    ((holding before).register f).1 = 0 ∨ ((holding before).register f).1 ∈ indices before := by
  have low := toNat_index before f
  by_cases zero : (before.length + 1) % 2 ^ 16 = 0
  · left
    rw [← UInt16.toNat_inj, low, zero]
    rfl
  · right
    rw [mem_indices_iff, low]
    exact ⟨(before.length + 1) % 2 ^ 16 - 1, by omega, by omega⟩

/-- What the index of `f` leads to, now and later. -/
theorem runs_wrapped (before : List NativeFn) (f : NativeFn) :
    ∃ g, (placeholder :: (before ++ [f]))[(before.length + 1) % 2 ^ 16]? = some g ∧
      ∀ later, (holding (before ++ f :: later)).Runs ((holding before).register f).1 g := by
  have bound : (before.length + 1) % 2 ^ 16 < (placeholder :: (before ++ [f])).length := by
    have := Nat.mod_le (before.length + 1) (2 ^ 16)
    simp only [List.length_cons, List.length_append, List.length_nil]
    omega
  refine ⟨_, List.getElem?_eq_getElem bound, fun later => runs_entry ?_⟩
  have longer : placeholder :: (before ++ f :: later) = placeholder :: (before ++ [f]) ++ later := by simp
  rw [toNat_index, longer, List.getElem?_append_left bound, List.getElem?_eq_getElem bound]

/-- **An index is honoured if and only if its position fits into a word.** Whatever the
position, the index leads to what stands at the position's low word, now and later; and
index 0 and the indices not handed out lead to no function. -/
theorem honoured_below_word (before : List NativeFn) (f : NativeFn) :
    (Honoured before f ↔ before.length + 1 < 2 ^ 16) ∧
    (∃ g, (placeholder :: (before ++ [f]))[(before.length + 1) % 2 ^ 16]? = some g ∧
      ∀ later, (holding (before ++ f :: later)).Runs ((holding before).register f).1 g) ∧
    (∀ index, index = 0 ∨ index ∉ indices before → (holding before).Fails index) := by
  refine ⟨⟨?_, ?_⟩, runs_wrapped before f, fun index other => fails_of_not_mem other⟩
  · intro honoured
    by_contra full
    rcases index_taken (f := f) (Nat.le_of_not_lt full) with zero | taken
    · exact honoured.reserved zero
    · exact honoured.fresh taken
  · intro room
    obtain ⟨g, stands, runs⟩ := runs_wrapped before f
    obtain rfl : f = g := by
      rw [Nat.mod_eq_of_lt room] at stands
      simpa using stands
    refine ⟨?_, index_fresh room, runs⟩
    intro zero
    have low := toNat_index before f
    rw [zero, Nat.mod_eq_of_lt room] at low
    cases low

/-- A function that always refuses. -/
def refusal : NativeFn :=
  fun _ => throw (.raised .value "refusing to initialize")

/-- The function that comes after 65535 others gets the index of the placeholder, and
a call with it meets the placeholder instead of the function. -/
theorem register_reaches_placeholder :
    ((holding (List.replicate 65535 refusal)).register refusal).1 = 0 ∧
    ¬ (holding (List.replicate 65535 refusal ++ [refusal])).Runs 0 refusal ∧
    ¬ Honoured (List.replicate 65535 refusal) refusal := by
  have wraps : ((holding (List.replicate 65535 refusal)).register refusal).1 = 0 := by
    rw [index_eq, List.length_replicate]
    rfl
  refine ⟨wraps, ?_, fun honoured => honoured.reserved wraps⟩
  intro runs
  have met : (holding (List.replicate 65535 refusal ++ [refusal])).Runs 0 placeholder := runs_entry rfl
  have same := (met [] { heap := Heap.blank {} }).symm.trans (runs [] { heap := Heap.blank {} })
  cases congrArg Prod.fst same

end NativeTable

end ChunkHeap

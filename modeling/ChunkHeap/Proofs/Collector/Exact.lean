import ChunkHeap.Proofs.Collector.Tracing

/-!
# A collection is exact

Sweeping removes the unmarked objects one after the other; `discardAll` says what
that does to the view, to any sum over the objects and to the free slots.

`collectWith_get?` is what the rest of the library uses: after a collection a
handle names an object exactly when it named one before and the roots lead to
it, and that object has changed in its mark only.
-/

namespace ChunkHeap
set_option autoImplicit false

namespace Arena

variable {a : Arena}

/-- Release the objects of a list, in order. -/
def discardAll (a : Arena) (entries : List (Handle × Object)) : Arena :=
  entries.foldl (fun b (x, _) => b.discard x) a

theorem discardAll_cons (a : Arena) (e : Handle × Object) (rest : List (Handle × Object)) :
    a.discardAll (e :: rest) = (a.discard e.1).discardAll rest := rfl

theorem discard_eq {x : Handle} {o : Object} (found : a.get? x = some o) :
    ∃ b, a.remove x = some (o, b) ∧ a.discard x = b ∧ b.slots.size = a.slots.size := by
  refine ⟨_, by simp only [remove, found, Option.map_some]; rfl, ?_, ?_⟩
  · simp only [discard, remove, found, Option.map_some]
  · simp

/-- Releasing distinct live objects frees just their slots and takes just their
weights away. -/
theorem discardAll_spec {entries : List (Handle × Object)} (ok : a.Consistent)
    (live : ∀ e ∈ entries, a.get? e.1 = some e.2) (distinct : entries.Pairwise fun e f => e.1 ≠ f.1) :
    (a.discardAll entries).Consistent ∧
      (∀ y, (a.discardAll entries).get? y = if y ∈ entries.map Prod.fst then none else a.get? y) ∧
      (∀ w, (a.discardAll entries).weight w + total (fun e => w e.2) entries = a.weight w) ∧
      (a.discardAll entries).slots.size = a.slots.size := by
  induction entries generalizing a with
  | nil => exact ⟨ok, by simp [discardAll], by simp [discardAll], rfl⟩
  | cons e rest ih =>
    obtain ⟨x, o⟩ := e
    obtain ⟨apart, distinct⟩ := List.pairwise_cons.1 distinct
    have found : a.get? x = some o := live (x, o) List.mem_cons_self
    obtain ⟨b, removed, discarded, size⟩ := discard_eq found
    have kept : ∀ f ∈ rest, b.get? f.1 = some f.2 := by
      intro f member
      rw [get?_remove_other removed (apart f member)]
      exact live f (List.mem_cons_of_mem _ member)
    obtain ⟨consistent, view, sums, sizes⟩ := ih (ok.remove removed) kept distinct
    rw [discardAll_cons, discarded]
    refine ⟨consistent, ?_, ?_, sizes.trans size⟩
    · intro y
      rw [view]
      by_cases later : y ∈ rest.map Prod.fst
      · simp only [later, if_true, List.map_cons, List.mem_cons, or_true]
      · by_cases same : y = x
        · simp only [same, List.map_cons, List.mem_cons, true_or, if_true, get?_remove_self removed, ite_self]
        · rw [get?_remove_other removed (fun e => same e.symm)]
          simp [later, same]
    · intro w
      have tail := sums w
      have head := weight_remove w removed
      simp only [total_cons]
      omega

theorem unmarked_pairwise (a : Arena) : a.unmarked.Pairwise fun e f => e.1 ≠ f.1 :=
  a.objects_pairwise.filter _

theorem mem_unmarked_iff {x : Handle} {o : Object} :
    (x, o) ∈ a.unmarked ↔ a.get? x = some o ∧ o.header.marked = false := by
  simp [unmarked, mem_objects_iff]

theorem sweep_spec (ok : a.Consistent) :
    a.sweep.Consistent ∧ (∀ y, a.sweep.get? y = (a.get? y).filter fun o => o.header.marked) ∧
      (∀ w, a.sweep.weight w + total (fun e => w e.2) a.unmarked = a.weight w) ∧
      a.sweep.slots.size = a.slots.size := by
  obtain ⟨consistent, view, sums, size⟩ :=
    discardAll_spec ok (fun e member => (mem_unmarked_iff.1 member).1) a.unmarked_pairwise
  refine ⟨consistent, ?_, sums, size⟩
  intro y
  rw [show a.sweep = a.discardAll a.unmarked from rfl, view]
  cases found : a.get? y with
  | none => simp
  | some o =>
    have listed : y ∈ a.unmarked.map Prod.fst ↔ o.header.marked = false := by
      simp only [List.mem_map, Prod.exists, exists_and_right, exists_eq_right, mem_unmarked_iff, found,
        Option.some.injEq]
      exact ⟨fun ⟨p, same, unmarked⟩ => same ▸ unmarked, fun unmarked => ⟨o, rfl, unmarked⟩⟩
    cases marked : o.header.marked <;> simp [listed, marked, Option.filter]

/-- Releasing objects brings none to life, and none of them stays. -/
theorem get?_discardAll {entries : List (Handle × Object)} {y : Handle} {o : Object}
    (found : (a.discardAll entries).get? y = some o) : a.get? y = some o ∧ y ∉ entries.map Prod.fst := by
  induction entries generalizing a with
  | nil => exact ⟨found, by simp⟩
  | cons e rest ih =>
    obtain ⟨after, apart⟩ := ih found
    have here : a.get? y = some o ∧ y ≠ e.1 := by
      cases removed : a.remove e.1 with
      | none =>
        simp only [discard, removed] at after
        refine ⟨after, ?_⟩
        rintro rfl
        rw [(remove_eq_none_iff _ _).1 removed] at after
        cases after
      | some r =>
        simp only [discard, removed] at after
        by_cases same : e.1 = y
        · rw [← same, get?_remove_self removed] at after
          cases after
        · rw [get?_remove_other removed same] at after
          exact ⟨after, fun equal => same equal.symm⟩
    exact ⟨here.1, by simpa using ⟨here.2, by simpa using apart⟩⟩

/-- What a sweep leaves was there before, with a mark. -/
theorem get?_sweep {y : Handle} {o : Object} (found : a.sweep.get? y = some o) :
    a.get? y = some o ∧ o.header.marked = true := by
  rw [show a.sweep = a.discardAll a.unmarked from rfl] at found
  obtain ⟨before, kept⟩ := get?_discardAll found
  refine ⟨before, ?_⟩
  cases marked : o.header.marked with
  | true => rfl
  | false => exact absurd (List.mem_map_of_mem (mem_unmarked_iff.2 ⟨before, marked⟩)) kept

end Arena

namespace Heap

/-- The arena and the byte accounting of a heap agree. -/
structure Accounted (h : Heap) : Prop where
  arena : h.arena.Consistent
  bytes : h.bytesInUse = h.arena.chunkTotal

/-- Marking with the roots shaded and nothing scanned. -/
def rooted (h : Heap) (pins : List Handle) : Tracing :=
  { Tracing.shadeAll { arena := h.arena.clearMarks } (h.collectionRoots pins) with stray := #[] }

/-- Marking when it is done. -/
def traced (h : Heap) (pins : List Handle) : Tracing :=
  (h.rooted pins).propagate

open Tracing in
theorem rooted_spec (h : Heap) (pins : List Handle) :
    Sound h.arena (h.collectionRoots pins) (h.rooted pins) ∧
      ∀ x ∈ h.collectionRoots pins, (∃ o, h.arena.get? x = some o) → x ∈ (h.rooted pins).shaded := by
  have start : ∀ x ∈ h.collectionRoots pins, h.arena.Reaches (h.collectionRoots pins) x := fun x member => .start member
  obtain ⟨sound, -, covered⟩ := (Sound.init h.arena (h.collectionRoots pins)).shadeAll start
  exact ⟨⟨sound.arena, sound.nodup, sound.live, sound.reached⟩, covered⟩

open Tracing in
/-- Marking ends in a sound state that has shaded everything live that the roots
lead to. -/
theorem traced_spec (h : Heap) (pins : List Handle) :
    Sound h.arena (h.collectionRoots pins) (h.traced pins) ∧
      ∀ x, x ∈ (h.traced pins).shaded ↔
        (∃ o, h.arena.get? x = some o) ∧ h.arena.Reaches (h.collectionRoots pins) x := by
  obtain ⟨rooted, covered⟩ := h.rooted_spec pins
  have slots : (h.rooted pins).arena.slots.size = h.arena.slots.size := by rw [rooted.arena, Arena.size_adjust]
  have enough : h.arena.slots.size ≤ 0 + (h.rooted pins).arena.slots.size := by omega
  have unscanned : Scanned h.arena 0 (h.rooted pins) := by intro j x o y before; omega
  obtain ⟨sound, longer, closed, -⟩ := scan_complete (fun s sound => sound.size_le) enough rooted unscanned
  rw [traced, propagate]
  refine ⟨sound, fun x => ⟨fun shaded => ⟨sound.live x shaded, sound.reached x shaded⟩, ?_⟩⟩
  rintro ⟨live, reached⟩
  exact mem_of_reaches closed (fun y member alive => mem_of_longer longer (covered y member alive)) reached live

open Tracing in
/-- Marking stops by itself: after one scan for each shaded object no gray one
is left, and allowing more scans changes nothing. -/
theorem scan_eq_traced (h : Heap) (pins : List Handle) {fuel : Nat} (enough : (h.traced pins).shaded.size ≤ fuel) :
    scan fuel 0 (h.rooted pins) = h.traced pins := by
  obtain ⟨sound, exact_⟩ := h.traced_spec pins
  obtain ⟨rooted, covered⟩ := h.rooted_spec pins
  have bound : ∀ s, Sound h.arena (h.collectionRoots pins) s → s.shaded.size ≤ (h.traced pins).shaded.size := by
    intro s other
    have inside : s.shaded.toList ⊆ (h.traced pins).shaded.toList := by
      intro x member
      have shaded : x ∈ s.shaded := by simpa using member
      simpa using (exact_ x).2 ⟨other.live x shaded, other.reached x shaded⟩
    simpa using (List.subperm_of_subset other.nodup inside).length_le
  have unscanned : Scanned h.arena 0 (h.rooted pins) := by intro j x o y before; omega
  obtain ⟨-, -, -, settled⟩ := scan_complete (i := 0) bound (Nat.le_of_eq (Nat.zero_add _).symm) rooted unscanned
  have slots : (h.rooted pins).arena.slots.size = h.arena.slots.size := by rw [rooted.arena, Arena.size_adjust]
  obtain ⟨more, rfl⟩ := Nat.exists_eq_add_of_le enough
  obtain ⟨rest, total⟩ := Nat.exists_eq_add_of_le (slots ▸ sound.size_le)
  rw [settled, ← settled rest, ← total, traced, propagate]

/-! ### What a collection leaves -/

variable {h : Heap} {pins : List Handle}

/-- The figures of a collection, read off the finished marking. -/
theorem collectWith_stats (h : Heap) (pins : List Handle) :
    (h.collectWith pins).stats = {
      marked := (h.traced pins).shaded.size
      freed := (h.traced pins).arena.unmarked.length
      bytesReclaimed := total (fun e => e.2.header.chunkBytes) (h.traced pins).arena.unmarked } := by
  simp only [collectWith, traced, rooted]

theorem collectWith_heap (h : Heap) (pins : List Handle) :
    (h.collectWith pins).heap = { h with
      arena := (h.traced pins).arena.sweep
      bytesInUse := h.bytesInUse - (h.collectWith pins).stats.bytesReclaimed
      collections := h.collections + 1 } := by
  simp only [collectWith, traced, rooted]

/-- A handle names an object after a collection when it named one before that the
roots lead to, and the object is the same but for its mark. -/
theorem collectWith_get? (ok : h.arena.Consistent) {x : Handle} {p : Object} :
    (h.collectWith pins).heap.arena.get? x = some p ↔
      ∃ o, h.arena.get? x = some o ∧ h.arena.Reaches (h.collectionRoots pins) x ∧ p = o.withMark true := by
  obtain ⟨sound, shaded_iff⟩ := h.traced_spec pins
  have consistent : (h.traced pins).arena.Consistent := by
    rw [sound.arena]
    exact ok.adjust _
  obtain ⟨-, view, -⟩ := Arena.sweep_spec consistent
  rw [collectWith_heap]
  simp only
  rw [view, sound.get?]
  cases found : h.arena.get? x with
  | none => simp
  | some o =>
    by_cases reached : h.arena.Reaches (h.collectionRoots pins) x
    · have shaded := (shaded_iff x).2 ⟨⟨o, found⟩, reached⟩
      simp [shaded, reached, Option.filter, eq_comm]
    · have white : x ∉ (h.traced pins).shaded := fun shaded => reached ((shaded_iff x).1 shaded).2
      simp [white, reached, Option.filter]

/-- The live objects that a collection of `h` removes, in slot order. -/
def removedBy (h : Heap) (pins : List Handle) : List (Handle × Object) :=
  h.arena.objects.filter fun e => !(h.collectWith pins).heap.isLive e.1

theorem isLive_iff {x : Handle} : h.isLive x = true ↔ ∃ o, h.arena.get? x = some o := by
  simp [isLive, Option.isSome_iff_exists]

theorem isLive_collectWith (ok : h.arena.Consistent) {x : Handle} :
    (h.collectWith pins).heap.isLive x = true ↔
      h.isLive x = true ∧ h.arena.Reaches (h.collectionRoots pins) x := by
  simp only [isLive_iff, collectWith_get? ok]
  constructor
  · rintro ⟨_, o, found, reached, rfl⟩
    exact ⟨⟨o, found⟩, reached⟩
  · rintro ⟨⟨o, found⟩, reached⟩
    exact ⟨_, o, found, reached, rfl⟩

/-- The objects swept are those removed, seen without a mark. -/
theorem unmarked_traced (ok : h.arena.Consistent) :
    (h.traced pins).arena.unmarked = (h.removedBy pins).map fun e => (e.1, e.2.withMark false) := by
  obtain ⟨sound, shaded_iff⟩ := h.traced_spec pins
  have white : ∀ e ∈ h.arena.objects,
      (e.1 ∈ (h.traced pins).shaded ↔ (h.collectWith pins).heap.isLive e.1 = true) := by
    rintro ⟨x, o⟩ member
    rw [shaded_iff, isLive_collectWith ok, isLive_iff]
  rw [Arena.unmarked, sound.arena, Arena.objects_adjust, List.filter_map]
  refine (congrArg _ (List.filter_congr (q := fun e => !(h.collectWith pins).heap.isLive e.1) ?_)).trans ?_
  · intro e member
    simp [white e member]
  · refine List.map_congr_left ?_
    intro e member
    obtain ⟨listed, dead⟩ := List.mem_filter.1 member
    have unshaded : e.1 ∉ (h.traced pins).shaded := by simpa [white e listed] using dead
    simp [unshaded]

theorem freed_eq (ok : h.arena.Consistent) : (h.collectWith pins).stats.freed = (h.removedBy pins).length := by
  rw [collectWith_stats]
  simp only [unmarked_traced ok, List.length_map]

theorem reclaimed_eq (ok : h.arena.Consistent) :
    (h.collectWith pins).stats.bytesReclaimed = total (fun e => e.2.header.chunkBytes) (h.removedBy pins) := by
  rw [collectWith_stats]
  simp only [unmarked_traced ok, total_eq_sum, List.map_map]
  rfl

/-- Shaded objects and survivors are the same objects, listed in two orders. -/
theorem marked_eq (ok : h.arena.Consistent) :
    (h.collectWith pins).stats.marked = (h.collectWith pins).heap.arena.objects.length := by
  obtain ⟨sound, shaded_iff⟩ := h.traced_spec pins
  have same : List.Perm (h.traced pins).shaded.toList (h.collectWith pins).heap.arena.handles := by
    rw [List.perm_ext_iff_of_nodup sound.nodup (Arena.handles_nodup _)]
    intro x
    rw [Array.mem_toList_iff, shaded_iff, Arena.mem_handles_iff, ← isLive_iff, ← isLive_iff, isLive_collectWith ok]
  have count := same.length_eq
  rw [Arena.length_handles, Array.length_toList] at count
  rw [collectWith_stats]
  exact count

theorem traced_weight (h : Heap) (pins : List Handle) {w : Object → Nat} (blind : ∀ o m, w (o.withMark m) = w o) :
    (h.traced pins).arena.weight w = h.arena.weight w := by
  rw [(h.traced_spec pins).1.arena]
  exact Arena.weight_adjust w h.arena fun x o => blind o _

/-- A collection keeps the accounting in step with the arena. -/
theorem Accounted.collectWith (ok : h.Accounted) (pins : List Handle) :
    (h.collectWith pins).heap.Accounted ∧
      (h.collectWith pins).heap.bytesInUse + (h.collectWith pins).stats.bytesReclaimed = h.bytesInUse := by
  obtain ⟨sound, -⟩ := h.traced_spec pins
  have consistent : (h.traced pins).arena.Consistent := by
    rw [sound.arena]
    exact ok.arena.adjust _
  obtain ⟨swept, -, sums, -⟩ := Arena.sweep_spec consistent
  have before : (h.traced pins).arena.weight (fun o => o.header.chunkBytes) = h.bytesInUse := by
    rw [ok.bytes, Arena.chunkTotal]
    exact h.traced_weight pins fun _ _ => rfl
  have balance := sums fun o => o.header.chunkBytes
  rw [before] at balance
  rw [collectWith_heap, collectWith_stats]
  refine ⟨⟨swept, ?_⟩, ?_⟩
  · simp only [Arena.chunkTotal]
    omega
  · simp only
    omega

/-- Whatever survives a collection is reached, also on a heap whose accounting is off. -/
theorem reaches_of_isLive_collectWith {x : Handle} (survives : (h.collectWith pins).heap.isLive x = true) :
    h.arena.Reaches (h.collectionRoots pins) x := by
  obtain ⟨sound, shaded_iff⟩ := h.traced_spec pins
  obtain ⟨o, found⟩ := isLive_iff.1 survives
  rw [collectWith_heap] at found
  obtain ⟨before, marked⟩ := Arena.get?_sweep found
  rw [sound.get?] at before
  obtain ⟨o', -, rfl⟩ := Option.map_eq_some_iff.1 before
  exact ((shaded_iff x).1 (by simpa using marked)).2

/-- What it means for `c` to be an exact collection of `h`: it keeps what the
roots and `pins` lead to, changes no survivor, and reports what it did. -/
structure ExactCollection (h : Heap) (pins : List Handle) (c : Collection) : Prop where
  live : ∀ x, c.heap.isLive x = true ↔ h.isLive x = true ∧ h.arena.Reaches (h.collectionRoots pins) x
  survivors : ∀ x p, c.heap.arena.get? x = some p → ∃ o, h.arena.get? x = some o ∧
    p.payload = o.payload ∧ p.header.tag = o.header.tag ∧ p.header.chunkBytes = o.header.chunkBytes
  roots : c.heap.roots = h.roots
  config : c.heap.config = h.config
  constants : c.heap.constants = h.constants
  marked : c.stats.marked = c.heap.arena.objects.length
  freed : c.stats.freed = (h.arena.objects.filter fun e => !c.heap.isLive e.1).length
  reclaimed : c.stats.bytesReclaimed =
    total (fun e => e.2.header.chunkBytes) (h.arena.objects.filter fun e => !c.heap.isLive e.1)
  bytes : c.heap.bytesInUse + c.stats.bytesReclaimed = h.bytesInUse
  counted : c.heap.collections = h.collections + 1

/-- **The collector is exact.** On every heap with consistent accounting, whatever
its object graph, marking stops by itself after one scan for each survivor, and
the collection keeps the reachable objects and no others. -/
theorem collectWith_exact (h : Heap) (ok : h.Accounted) (pins : List Handle) :
    (∀ fuel, (h.collectWith pins).stats.marked ≤ fuel →
      Tracing.scan fuel 0 (h.rooted pins) = (h.rooted pins).propagate) ∧
    h.ExactCollection pins (h.collectWith pins) := by
  refine ⟨?_, ?_⟩
  · intro fuel enough
    rw [collectWith_stats] at enough
    rw [h.scan_eq_traced pins enough, traced]
  · exact {
      live := fun x => isLive_collectWith ok.arena
      survivors := by
        intro x p found
        obtain ⟨o, before, -, rfl⟩ := (collectWith_get? ok.arena).1 found
        exact ⟨o, before, rfl, rfl, rfl⟩
      roots := by rw [collectWith_heap]
      config := by rw [collectWith_heap]
      constants := by rw [collectWith_heap]
      marked := marked_eq ok.arena
      freed := freed_eq ok.arena
      reclaimed := reclaimed_eq ok.arena
      bytes := (ok.collectWith pins).2
      counted := by rw [collectWith_heap] }

/-- A rooted tuple that contains itself and a handle to a free slot, and an
unrooted one that contains itself. -/
def tangled : Heap where
  arena := {
    slots := #[
      .live { header := { tag := .none, chunkBytes := 8 }, payload := .none },
      .live { header := { tag := .tuple, chunkBytes := 8 }, payload := .tuple [⟨1⟩, ⟨3⟩] },
      .live { header := { tag := .tuple, chunkBytes := 8, marked := true }, payload := .tuple [⟨2⟩] },
      .free none]
    freeHead := some 3
    liveCount := 3
    freeCount := 1 }
  roots := { stack := [⟨1⟩, ⟨1⟩] }
  bytesInUse := 24

theorem tangled_accounted : tangled.Accounted where
  arena := {
    freeList := by
      refine ⟨[3], ⟨rfl, none, rfl, rfl⟩, by simp, ?_, rfl⟩
      intro i next found
      match i with
      | 0 | 1 | 2 => cases found
      | 3 => simp
      | n + 4 => simp [tangled] at found
    live := rfl }
  bytes := rfl

theorem collectWith_exact_tangled :
    tangled.Accounted ∧ tangled.ExactCollection [] (tangled.collectWith []) ∧
      (tangled.collectWith []).stats = ⟨2, 1, 8⟩ ∧ (tangled.collectWith []).heap.isLive ⟨2⟩ = false :=
  ⟨tangled_accounted, (collectWith_exact tangled tangled_accounted []).2, by decide +kernel, by decide +kernel⟩

end Heap

end ChunkHeap

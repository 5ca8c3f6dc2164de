import ChunkHeap.Proofs.Allocation

/-!
# When an allocation runs out of memory

After a collection the bytes in use are those of the reachable objects
(`Heap.bytesInUse_collectWith`): every unreachable byte is given back and no
reachable one is. So whether an allocation succeeds is a matter of the object
graph alone, and `Heap.Allocation` says which of its four ways it goes, what heap
it leaves and what it keeps. Where a collection is made, its roots include the
pins and what the new payload refers to.
-/

namespace ChunkHeap
set_option autoImplicit false

open Classical in
/-- The bytes charged for the live objects that `starts` lead to. -/
noncomputable def Arena.reachedBytes (a : Arena) (starts : List Handle) : Nat :=
  total (fun e => e.2.header.chunkBytes) (a.objects.filter fun e => a.Reaches starts e.1)

namespace Heap

variable {h g k : Heap} {pins : List Handle}

/-- A collection gives back every byte that nothing reaches, and no other. -/
theorem bytesInUse_collectWith (ok : h.Accounted) (pins : List Handle) :
    (h.collectWith pins).heap.bytesInUse = h.arena.reachedBytes (h.collectionRoots pins) := by
  classical
  have survive : (h.arena.objects.filter fun e => h.arena.Reaches (h.collectionRoots pins) e.1) =
      h.arena.objects.filter fun e => (h.collectWith pins).heap.isLive e.1 := by
    refine List.filter_congr ?_
    rintro ⟨x, o⟩ member
    have live : h.isLive x = true := isLive_iff.2 ⟨o, Arena.mem_objects_iff.1 member⟩
    rw [Bool.eq_iff_iff, decide_eq_true_iff, isLive_collectWith ok.arena]
    simp only [live, true_and]
  have split := ((List.filter_append_perm (fun e => (h.collectWith pins).heap.isLive e.1) h.arena.objects).map
    fun e => e.2.header.chunkBytes).sum_eq
  rw [List.map_append, List.sum_append, ← total_eq_sum, ← total_eq_sum, ← total_eq_sum] at split
  have balance := (ok.collectWith pins).2
  rw [reclaimed_eq ok.arena, removedBy, ok.bytes, Arena.chunkTotal, Arena.weight] at balance
  rw [Arena.reachedBytes, survive]
  omega

/-- `k` is `g` with one more object: `x`, which was free, holds `p`, under the
tag and at the price of `p`. -/
structure Inserted (p : Payload) (x : Handle) (g k : Heap) : Prop where
  vacant : g.isLive x = false
  entered : k.arena.get? x = some { header := { tag := p.tag, chunkBytes := p.chunkBytes }, payload := p }
  others : ∀ y, y ≠ x → k.arena.get? y = g.arena.get? y
  bytes : k.bytesInUse = g.bytesInUse + p.chunkBytes
  roots : k.roots = g.roots
  config : k.config = g.config
  constants : k.constants = g.constants
  collections : k.collections = g.collections

theorem inserted_place (ok : g.arena.Consistent) (p : Payload) : Inserted p (g.place p).1 g (g.place p).2 where
  vacant := by rw [isLive, place_fresh ok, Option.isSome_none]
  entered := by rw [place_get? ok, if_pos rfl]; rfl
  others := fun y other => by rw [place_get? ok, if_neg (Ne.symm other)]
  bytes := rfl
  roots := rfl
  config := rfl
  constants := rfl
  collections := rfl

/-- An object is found again, with the same payload, tag and price. -/
def Retains (h k : Heap) (x : Handle) : Prop :=
  ∀ o, h.arena.get? x = some o → ∃ o', k.arena.get? x = some o' ∧ o'.payload = o.payload ∧
    o'.header.tag = o.header.tag ∧ o'.header.chunkBytes = o.header.chunkBytes

theorem Retains.refl (h : Heap) (x : Handle) : h.Retains h x :=
  fun o found => ⟨o, found, rfl, rfl, rfl⟩

/-- A new object is in nobody's way. -/
theorem Retains.inserted {p : Payload} {x y : Handle} (kept : h.Retains g y) (entered : Inserted p x g k) :
    h.Retains k y := by
  intro o found
  obtain ⟨o', found', same⟩ := kept o found
  have other : y ≠ x := by
    rintro rfl
    have vacant := entered.vacant
    rw [isLive, found'] at vacant
    cases vacant
  exact ⟨o', by rw [entered.others y other, found'], same⟩

theorem retains_collectWith (ok : h.arena.Consistent) {x : Handle}
    (reached : h.arena.Reaches (h.collectionRoots pins) x) : h.Retains (h.collectWith pins).heap x :=
  fun o found => ⟨o.withMark true, (collectWith_get? ok).2 ⟨o, found, reached, rfl⟩, rfl, rfl, rfl⟩

/-! ### Making room, case by case -/

variable {size : Nat}

theorem fits_iff : h.fits size = true ↔ h.bytesInUse + size ≤ h.config.arenaBytes := by
  simp [fits]

theorem room_of_fits (fits : h.bytesInUse + size ≤ h.config.arenaBytes) : h.room size pins = h := by
  rw [room, fits_iff.2 fits]
  rfl

theorem room_of_off (off : h.config.collectOnExhaustion = false) : h.room size pins = h := by
  rw [room, off, Bool.and_false]
  rfl

theorem room_of_full (full : h.config.arenaBytes < h.bytesInUse + size)
    (on : h.config.collectOnExhaustion = true) : h.room size pins = (h.collectWith pins).heap := by
  have tight : h.fits size = false := by
    rw [Bool.eq_false_iff, Ne, fits_iff]
    omega
  rw [room, tight, on]
  rfl

theorem retains_room (ok : h.arena.Consistent) {x : Handle}
    (reached : h.arena.Reaches (h.collectionRoots pins) x) : h.Retains (h.room size pins) x := by
  obtain same | same := h.room_cases size pins
  · rw [same]
    exact .refl h x
  · rw [same]
    exact retains_collectWith ok reached

/-- Whatever is live after room was made was live before and is unchanged. -/
theorem survivors_room (ok : h.arena.Consistent) {y : Handle} (live : (h.room size pins).isLive y = true) :
    h.isLive y = true ∧ h.Retains (h.room size pins) y := by
  obtain same | same := h.room_cases size pins
  · rw [same] at live ⊢
    exact ⟨live, .refl h y⟩
  · rw [same] at live ⊢
    obtain ⟨before, reached⟩ := (isLive_collectWith ok).1 live
    exact ⟨before, retains_collectWith ok reached⟩

/-- The operation failed for want of memory. -/
def RanOut {α : Type} (outcome : Except Error α) : Prop :=
  ∃ e, outcome = .error e ∧ e.kind = .memory

/-- What an allocation of `p` with `pins` does to `h`: the outcome it may have and
the heap `k` it may leave. -/
structure Allocation (h : Heap) (p : Payload) (pins : List Handle) (outcome : Except Error Handle) (k : Heap) :
    Prop where
  /-- A chunk above the limit is refused. -/
  oversized : h.config.maxChunkBytes < p.chunkBytes → RanOut outcome ∧ k = h
  /-- What fits is entered without a collection. -/
  fitting : p.chunkBytes ≤ h.config.maxChunkBytes → h.bytesInUse + p.chunkBytes ≤ h.config.arenaBytes →
    ∃ x, outcome = .ok x ∧ Inserted p x h k
  /-- What does not fit is refused if collecting is switched off. -/
  unaided : p.chunkBytes ≤ h.config.maxChunkBytes → h.config.arenaBytes < h.bytesInUse + p.chunkBytes →
    h.config.collectOnExhaustion = false → RanOut outcome ∧ k = h
  /-- Otherwise one collection is made, and all depends on what the sources of
  that collection reach. -/
  collecting : p.chunkBytes ≤ h.config.maxChunkBytes → h.config.arenaBytes < h.bytesInUse + p.chunkBytes →
    h.config.collectOnExhaustion = true →
    ∃ swept, swept = (h.collectWith (pins ++ p.children)).heap ∧ swept.collections = h.collections + 1 ∧
      ((∃ x, outcome = .ok x) ↔
        h.arena.reachedBytes (h.collectionRoots (pins ++ p.children)) + p.chunkBytes ≤ h.config.arenaBytes) ∧
      (∀ x, outcome = .ok x → Inserted p x swept k) ∧
      (∀ e, outcome = .error e → e.kind = .memory ∧ k = swept)
  /-- Whatever the way, nothing reachable from the sources is lost. -/
  kept : ∀ x, h.arena.Reaches (h.collectionRoots (pins ++ p.children)) x → h.Retains k x
  /-- Whatever is live afterwards is the new object or was live and is unchanged. -/
  survivors : ∀ y, k.isLive y = true → outcome = .ok y ∨ h.isLive y = true ∧ h.Retains k y

/-- A chunk above the limit is refused before anything is done. -/
theorem Allocation.of_oversized {p : Payload} (large : h.config.maxChunkBytes < p.chunkBytes) :
    h.Allocation p pins (.error .oversized) h where
  oversized := fun _ => ⟨⟨_, rfl, rfl⟩, rfl⟩
  fitting := fun small => absurd large (Nat.not_lt.2 small)
  unaided := fun small => absurd large (Nat.not_lt.2 small)
  collecting := fun small => absurd large (Nat.not_lt.2 small)
  kept := fun x _ => .refl _ x
  survivors := fun y live => .inr ⟨live, .refl _ y⟩

/-- The chunk fits into the room made for it. -/
theorem Allocation.of_placed {p : Payload} (ok : h.Accounted) (small : p.chunkBytes ≤ h.config.maxChunkBytes)
    (fits : (h.room p.chunkBytes (pins ++ p.children)).fits p.chunkBytes = true) :
    h.Allocation p pins (.ok ((h.room p.chunkBytes (pins ++ p.children)).place p).1)
      ((h.room p.chunkBytes (pins ++ p.children)).place p).2 := by
  have entered := inserted_place (ok.room p.chunkBytes (pins ++ p.children)).arena p
  rw [fits_iff, room_config] at fits
  exact {
    oversized := fun large => absurd small (Nat.not_le.2 large)
    fitting := by
      intro _ within
      rw [room_of_fits within] at entered ⊢
      exact ⟨_, rfl, entered⟩
    unaided := by
      intro _ full off
      rw [room_of_off off] at fits
      omega
    collecting := by
      intro _ full on
      have made : h.room p.chunkBytes (pins ++ p.children) = (h.collectWith (pins ++ p.children)).heap :=
        room_of_full full on
      rw [made, bytesInUse_collectWith ok] at fits
      refine ⟨_, rfl, by rw [collectWith_heap], ⟨fun _ => fits, fun _ => ⟨_, rfl⟩⟩, ?_, ?_⟩
      · rintro x placed
        cases placed
        rw [← made]
        exact entered
      · rintro e failed
        cases failed
    kept := fun x reached => (retains_room ok.arena reached).inserted entered
    survivors := by
      intro y live
      by_cases new : y = ((h.room p.chunkBytes (pins ++ p.children)).place p).1
      · exact .inl (congrArg _ new.symm)
      · rw [isLive, entered.others y new] at live
        obtain ⟨before, kept⟩ := survivors_room ok.arena live
        exact .inr ⟨before, kept.inserted entered⟩ }

/-- The chunk does not fit into the room made for it. -/
theorem Allocation.of_exhausted {p : Payload} (ok : h.Accounted) (small : p.chunkBytes ≤ h.config.maxChunkBytes)
    (tight : ¬(h.room p.chunkBytes (pins ++ p.children)).fits p.chunkBytes = true) :
    h.Allocation p pins (.error .exhausted) (h.room p.chunkBytes (pins ++ p.children)) := by
  rw [fits_iff, room_config] at tight
  exact {
    oversized := fun large => absurd small (Nat.not_le.2 large)
    fitting := by
      intro _ within
      rw [room_of_fits within] at tight
      exact absurd within tight
    unaided := fun _ _ off => ⟨⟨_, rfl, rfl⟩, room_of_off off⟩
    collecting := by
      intro _ full on
      have made : h.room p.chunkBytes (pins ++ p.children) = (h.collectWith (pins ++ p.children)).heap :=
        room_of_full full on
      rw [made, bytesInUse_collectWith ok] at tight
      refine ⟨_, rfl, by rw [collectWith_heap], ⟨?_, fun enough => absurd enough tight⟩, ?_, ?_⟩
      · rintro ⟨x, placed⟩
        cases placed
      · rintro x placed
        cases placed
      · rintro e failed
        cases failed
        exact ⟨rfl, made⟩
    kept := fun x reached => retains_room ok.arena reached
    survivors := fun y live => .inr (survivors_room ok.arena live) }

end Heap

namespace HeapM

/-- **An allocation fails exactly when it must, and loses nothing it should keep.** -/
theorem allocatePinned_outcome (m : Machine) (ok : m.heap.Accounted) (p : Payload) (pins : List Handle) :
    m.heap.Allocation p pins ((allocatePinned p pins).run m).1 ((allocatePinned p pins).run m).2.heap := by
  obtain ⟨log, ran⟩ := run_allocatePinned p pins m
  rw [ran]
  split
  · next large => exact .of_oversized large
  · next small =>
    split
    · next fits => exact .of_placed ok (Nat.not_lt.1 small) fits
    · next tight => exact .of_exhausted ok (Nat.not_lt.1 small) tight

end HeapM

/-- A full heap: a tuple to be pinned with its element, an object that a new tuple
is about to hold, and a tuple that only contains itself. -/
abbrev Heap.crammed : Heap where
  arena := {
    slots := #[
      .live { header := { tag := .none, chunkBytes := 8 }, payload := .none },
      .live { header := { tag := .tuple, chunkBytes := 8 }, payload := .tuple [⟨2⟩] },
      .live { header := { tag := .int, chunkBytes := 8 }, payload := .int 5 },
      .live { header := { tag := .tuple, chunkBytes := 8 }, payload := .tuple [⟨3⟩] },
      .live { header := { tag := .int, chunkBytes := 8 }, payload := .int 7 }]
    liveCount := 5 }
  config := { arenaBytes := 40, maxChunkBytes := 16 }
  bytesInUse := 40

theorem Heap.crammed_accounted : crammed.Accounted where
  arena := {
    freeList := by
      refine ⟨[], rfl, List.nodup_nil, ?_, rfl⟩
      intro i next found
      match i with
      | 0 | 1 | 2 | 3 | 4 => cases found
      | n + 5 => simp at found
    live := rfl }
  bytes := rfl

open HeapM Heap in
/-- The new tuple takes the slot of the one that only contains itself. -/
theorem HeapM.allocatePinned_outcome_crammed :
    crammed.Accounted ∧
      crammed.Allocation (.tuple [⟨4⟩]) [⟨1⟩] ((allocatePinned (.tuple [⟨4⟩]) [⟨1⟩]).run ⟨crammed, #[]⟩).1
        ((allocatePinned (.tuple [⟨4⟩]) [⟨1⟩]).run ⟨crammed, #[]⟩).2.heap ∧
      ((allocatePinned (.tuple [⟨4⟩]) [⟨1⟩]).run ⟨crammed, #[]⟩).1 = .ok ⟨3⟩ ∧
      crammed.arena.reachedBytes (crammed.collectionRoots [⟨1⟩, ⟨4⟩]) + 8 ≤ 40 := by
  have outcome := allocatePinned_outcome ⟨crammed, #[]⟩ crammed_accounted (.tuple [⟨4⟩]) [⟨1⟩]
  have placed : ((allocatePinned (.tuple [⟨4⟩]) [⟨1⟩]).run ⟨crammed, #[]⟩).1 = .ok ⟨3⟩ := by decide +kernel
  obtain ⟨-, -, -, enough, -⟩ := outcome.collecting (by decide) (by decide) rfl
  exact ⟨crammed_accounted, outcome, placed, enough.1 ⟨_, placed⟩⟩

end ChunkHeap

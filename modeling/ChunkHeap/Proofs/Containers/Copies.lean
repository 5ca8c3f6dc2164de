import ChunkHeap.Proofs.Containers.Independence
import ChunkHeap.Proofs.Instantiation

/-!
# Lists made from a list

Repeating, copying and slicing make a new list in one construction: the list is
allocated empty and kept, and then elements of the other list are appended to it one by
one. Before each allocation there may be a collection. What the roots led to at the
start stays as it was throughout (`Heap.Remains`), so the elements still to be read are
there, and the new list, which only the construction keeps, comes to hold those read so
far (`ListObject.Filling`). Memory may run out on the way, where a chunk of the new list
finds no room (`Heap.Cramped`); nothing else can go wrong.

The result has its own storage and segments, so the two lists go on without each other
(`ListObject.Beside`).
-/

namespace ChunkHeap
set_option autoImplicit false

open HeapM Heap

namespace Heap

variable {base h g : Heap} {l t s u x : Handle} {xs : List Handle} {S : Handle → Prop} {building : Bool}

/-! ### What remains -/

/-- What the roots of `base` led to is in `h` as it was, and the roots lead to it. -/
structure Remains (base h : Heap) : Prop where
  sound : h.Sound none
  roots : base.collectionRoots [] ⊆ h.collectionRoots []
  persists : Persists base.Anchored base h

namespace Remains

theorem anchored (remains : Remains base h) (sound : base.Sound none) (anchored : base.Anchored x) : h.Anchored x :=
  remains.persists.rooted sound remains.sound.toShaped remains.roots anchored

theorem altered (remains : Remains base h) (altered : Altered S h g) (sound : base.Sound none)
    (apart : ∀ x, S x → ¬ base.Rooted x) : Remains base g where
  sound := altered.sound
  roots := fun _ root => altered.toUpkeep.roots_subset (remains.roots root)
  persists := by
    intro x anchored
    have outside : ¬ S x := fun inside => apart x inside anchored.1
    exact (altered.kept x outside (remains.anchored sound anchored).1).trans (remains.persists x anchored)

/-- Nothing is written, and there may be more roots. -/
theorem kept (remains : Remains base h) (kept : Kept building (fun _ => False) h g) (sound : base.Sound none) :
    Remains base g where
  sound := kept.sound
  roots := fun _ root => kept.roots_subset (remains.roots root)
  persists := by
    have persists := kept.confined.persists remains.sound.toShaped kept.sound.toShaped
    exact remains.persists.trans (persists.mono fun x anchored => remains.anchored sound anchored)

/-- The roots are set back. -/
theorem left {roots : RootSet} (remains : Remains base h) (kept : Kept building S base { h with roots := roots }) :
    Remains base { h with roots := roots } where
  sound := kept.sound
  roots := kept.roots_subset
  persists := fun x anchored => (remains.sound.toShaped.content?_rerooted roots x).trans (remains.persists x anchored)

end Remains

/-- There is no room for an empty list, or at some point before it has `n` elements none
for the next segment of the list. -/
def Cramped (n : Nat) (h : Heap) : Prop :=
  ¬ h.Admits (Payload.seglist {}).chunkBytes ∨ ∃ k < n, Brimming k h

/-- Lists with the same elements are found the same, whatever the elements contain. -/
theorem HasItems.compare (left : h.HasItems l s xs) (right : h.HasItems t u xs) (sound : h.Sound none) :
    h.compare l t = .ok .same := by
  have read := (segListItems_of_items left.storage).2
  have read' := (segListItems_of_items right.storage).2
  rw [Heap.compare, compareWithin_eq sound maxCompareDepth left.find? right.find?]
  split
  · rfl
  · rw [facet, facet, read, read']
    show h.sequences maxCompareDepth xs xs = .ok .same
    unfold sequences
    rw [if_pos rfl]
    exact elementwise_self fun x _ => h.compareWithin_self _ x

end Heap

/-! ### Elements at regular distances -/

namespace Position

variable {lo hi step count i k : Nat} {xs : List Handle}

theorem lt_stepCount_iff (positive : 0 < step) : k < stepCount lo hi step ↔ lo + k * step < hi := by
  rw [stepCount, Nat.lt_div_iff_mul_lt positive]
  omega

/-- The elements of a list at the positions `i`, `i + step`, … -/
def picks (xs : List Handle) (step count i : Nat) : List Handle :=
  (List.range' i count step).filterMap (xs[·]?)

/-- All these positions are positions of the list. -/
def Inside (xs : List Handle) (step count i : Nat) : Prop :=
  ∀ k < count, i + k * step < xs.length

theorem Inside.first (inside : Inside xs step (count + 1) i) : i < xs.length := by
  simpa using inside 0 (Nat.succ_pos count)

theorem Inside.rest (inside : Inside xs step (count + 1) i) : Inside xs step count (i + step) := by
  intro k less
  have later := inside (k + 1) (Nat.succ_lt_succ less)
  rw [Nat.add_mul] at later
  omega

theorem picks_succ (here : i < xs.length) : picks xs step (count + 1) i = xs[i] :: picks xs step count (i + step) := by
  rw [picks, List.range'_succ, List.filterMap_cons_some (List.getElem?_eq_getElem here)]
  rfl

theorem getElem?_picks (inside : Inside xs step count i) :
    (picks xs step count i)[k]? = if k < count then xs[i + k * step]? else none := by
  induction count generalizing i k with
  | zero => rfl
  | succ count ih =>
    rw [picks_succ inside.first]
    cases k with
    | zero => simp [inside.first]
    | succ k =>
      have position : i + step + k * step = i + (k + 1) * step := by
        rw [Nat.add_mul]
        omega
      rw [List.getElem?_cons_succ, ih inside.rest, position]
      simp

/-- One after the other, from the first to the last. -/
theorem picks_all (xs : List Handle) : picks xs 1 xs.length 0 = xs := by
  have inside : Inside xs 1 xs.length 0 := fun k less => by omega
  apply List.ext_getElem?
  intro k
  rw [getElem?_picks inside, Nat.zero_add, Nat.mul_one]
  split
  · rfl
  · rw [List.getElem?_eq_none (by omega)]

end Position

namespace ListObject

open Position

variable {base : Heap} {m : Machine} {l s t u x : Handle} {xs ys zs : List Handle} {step count i : Nat}

/-! ### The new list -/

/-- The segmented list takes more room than the list that is kept in it. -/
theorem failsFull_new : FailsFull (Payload.seglist {}).chunkBytes new := by
  apply (failsFull_allocatePinned _ _ (Nat.le_refl _)).bind
  intro u
  apply failsFull_allocatePinned
  apply Chunk.sizeFor_mono
  simp [Payload.bytes, Nat.le_mul_of_pos_left]

/-- Making a list: what the roots lead to is kept, and they do not lead to the new parts. -/
theorem run_new (sound : m.heap.Sound none) :
    (∃ e m', new.run m = (.error e, m') ∧ e.kind = .memory ∧ ¬ m'.heap.Admits (Payload.seglist {}).chunkBytes ∧
        Kept true (fun _ => False) m.heap m'.heap) ∨
      ∃ t u m', new.run m = (.ok t, m') ∧ Kept true (fun _ => False) m.heap m'.heap ∧ m'.heap.HasItems t u [] ∧
        ∀ x ∈ [t, u], ¬ m'.heap.Rooted x := by
  have keeps : Keeps true (fun _ => False) _ new _ := keeps_new fun _ => False
  obtain ⟨kept, list⟩ := keeps m sound fun _ none => none.elim
  have full := (failsFull_new m sound.accounted).2
  rcases ran : new.run m with ⟨e | t, m'⟩ <;> rw [ran] at kept
  · rw [ran] at full
    obtain ⟨memory, refused⟩ := full e rfl
    exact .inl ⟨e, m', rfl, memory, refused, kept⟩
  · rw [ran] at list
    obtain ⟨⟨u, empty, unrooted⟩, -⟩ := list t rfl
    obtain ⟨zs, has⟩ := kept.sound.hasItems empty
    obtain rfl : zs = [] := by
      have record := has.find?
      rw [empty] at record
      injection record with record
      injection record with record
      injection record with length
      exact List.length_eq_zero_iff.1 length.symm
    exact .inr ⟨t, u, m', rfl, kept, has, unrooted⟩

/-- The list `t`, kept in `u`, is under construction and has come to hold `ys`; what the
roots of `base` led to is as it was, and does not include the new list. -/
structure Filling (base : Heap) (t u : Handle) (ys : List Handle) (h : Heap) : Prop extends Remains base h where
  kept : t ∈ h.roots.inFlight
  holds : h.HasItems t u ys
  fresh : ∀ x, Own t u x → ¬ base.Rooted x

/-- How filling the list ends: it holds `ys`, or there was no room for another segment
when it held fewer elements. -/
inductive Fills (base : Heap) (t u : Handle) (ys : List Handle) : Except Error Unit × Machine → Prop
  | noRoom {e : Error} {m' : Machine} (memory : e.kind = .memory) (full : ∃ k < ys.length, Brimming k m'.heap)
      (remains : Remains base m'.heap) : Fills base t u ys (.error e, m')
  | done {m' : Machine} (filling : Filling base t u ys m'.heap) : Fills base t u ys (.ok (), m')

theorem Filling.glanced {h g : Heap} (filling : Filling base t u ys h) (glanced : Glanced h g) (sound : base.Sound none) :
    Filling base t u ys g :=
  { filling.toRemains.altered (glanced.altered filling.sound fun _ => False) sound fun _ none => none.elim with
    kept := by rw [glanced.toUpkeep.roots]; exact filling.kept
    holds := filling.holds.glanced glanced filling.sound
    fresh := filling.fresh }

theorem Fills.bind {f : Unit → HeapM Unit} {op : HeapM Unit} (first : Fills base t u ys (op.run m))
    (longer : ys.length ≤ zs.length) (second : ∀ m', Filling base t u ys m'.heap → Fills base t u zs ((f ()).run m')) :
    Fills base t u zs ((op >>= f).run m) := by
  rw [run_bind]
  generalize op.run m = result at first
  cases first with
  | noRoom memory full remains =>
    obtain ⟨k, less, brimming⟩ := full
    exact .noRoom memory ⟨k, Nat.lt_of_lt_of_le less longer, brimming⟩ remains
  | done filling => exact second _ filling

theorem Filling.appended (filling : Filling base t u ys m.heap) (sound : base.Sound none) (anchored : base.Anchored x) :
    Fills base t u (ys ++ [x]) ((append t x).run m) := by
  have rooted : m.heap.Rooted t := rooted_of_inFlight filling.kept
  have effect := append_effect filling.sound filling.holds rooted (filling.anchored sound anchored).2
  generalize (append t x).run m = result at effect
  cases effect with
  | noRoom memory altered brimming =>
    refine .noRoom memory ⟨ys.length, ?_, brimming⟩ (filling.toRemains.altered altered sound fun _ none => none.elim)
    simp
  | done altered holds =>
    exact .done
      { filling.toRemains.altered altered sound filling.fresh with
        kept := by rw [altered.roots]; exact filling.kept
        holds := holds
        fresh := filling.fresh }

/-- Copying elements of a list that was there before. -/
theorem Filling.copied (filling : Filling base t u ys m.heap) (sound : base.Sound none) (rooted : base.Rooted l)
    (source : base.HasItems l s xs) (inside : Inside xs step count i) :
    Fills base t u (ys ++ picks xs step count i) ((copyEvery s t step count i).run m) := by
  induction count generalizing i ys m with
  | zero =>
    rw [picks, List.range'_zero, List.filterMap_nil, List.append_nil]
    exact .done filling
  | succ count ih =>
    have here : i < xs.length := inside.first
    have lasting := source.persists sound.toShaped rooted filling.persists
    obtain ⟨m₁, read, glanced⟩ := SegList.run_get filling.sound lasting.storage i
    rw [List.getElem?_eq_getElem here] at read
    have anchored : base.Anchored xs[i] := by
      have member : xs[i] ∈ (Content.items xs).refs := List.getElem_mem here
      constructor
      · exact sound.toShaped.reaches_ref (source.rooted_storage rooted) source.storage member
      · exact sound.toShaped.element_of_ref source.storage member
    have added := (filling.glanced glanced sound).appended sound anchored
    rw [copyEvery, run_bind_ok read, picks_succ here]
    apply added.bind
    · simp
    · intro m₂ filling₂
      have rest := ih filling₂ inside.rest
      rwa [List.append_assoc] at rest

/-- Copying the whole list several times over. -/
theorem Filling.repeated (filling : Filling base t u ys m.heap) (sound : base.Sound none) (rooted : base.Rooted l)
    (source : base.HasItems l s xs) (rounds : Nat) :
    Fills base t u (ys ++ (List.replicate rounds xs).flatten)
      ((times rounds (copyEvery s t 1 xs.length 0)).run m) := by
  induction rounds generalizing ys m with
  | zero =>
    rw [List.replicate_zero, List.flatten_nil, List.append_nil]
    exact .done filling
  | succ rounds ih =>
    have inside : Inside xs 1 xs.length 0 := fun k less => by omega
    have once := filling.copied sound rooted source inside
    rw [picks_all] at once
    rw [times, List.replicate_succ, List.flatten_cons, ← List.append_assoc]
    apply once.bind
    · simp
    · exact fun m₁ filling₁ => ih filling₁

/-! ### The construction -/

/-- The steps of making a list, which is kept while it is filled. -/
def makeWith (fill : Handle → HeapM Unit) : HeapM Handle := do
  let result ← new
  protect result
  fill result
  return result

theorem replicate_eq (l : Handle) (n : Int) :
    replicate l n = (do
      let r ← inspect fun h => h.listRecord l
      guarded (makeWith fun t => times (if r.length = 0 then 0 else n.toNat) (copyEvery r.storage t 1 r.length 0))) :=
  rfl

theorem extract_eq (s : Handle) (step count i : Nat) :
    extract s step count i = guarded (makeWith fun t => copyEvery s t step count i) :=
  rfl

variable {fill : Handle → HeapM Unit} {right : List Handle → Prop}

/-- A list of `ys` is made, or there is no room for it. -/
theorem run_makeWith (sound : m.heap.Sound none)
    (fills : ∀ t u m', Filling m.heap t u [] m'.heap → Fills m.heap t u ys ((fill t).run m')) :
    (∃ e m', (makeWith fill).run (m.mapRoots RootSet.enter) = (.error e, m') ∧ e.kind = .memory ∧
        Cramped ys.length m'.heap ∧ Remains m.heap m'.heap) ∨
      ∃ t u m', (makeWith fill).run (m.mapRoots RootSet.enter) = (.ok t, m') ∧ Filling m.heap t u ys m'.heap := by
  have entered : Remains m.heap (m.mapRoots RootSet.enter).heap := by
    constructor
    · exact sound.rerooted fun x root => sound.roots x (List.mem_append_left _ (List.mem_append_left _ root))
    · exact List.Subset.refl _
    · exact fun x _ => sound.toShaped.content?_rerooted _ x
  rcases run_new entered.sound with ⟨e, m₁, failed, memory, refused, kept⟩ | ⟨t, u, m₁, made, kept, empty, unrooted⟩
  · exact .inl ⟨e, m₁, by rw [makeWith, run_bind_error failed], memory, .inl refused, entered.kept kept sound⟩
  have protects : Keeps true (fun _ => False) (fun h => h.Element t) (protect t) fun _ _ => True :=
    keeps_protect t (fun _ element => element) fun _ _ => trivial
  have pinned : (protect t).run m₁ = (.ok (), m₁.mapRoots fun r => r.protect t) := run_modifyRoots _ m₁
  have kept' := (protects m₁ kept.sound empty.element).1
  rw [pinned] at kept'
  have filling : Filling m.heap t u [] (m₁.mapRoots fun r => r.protect t).heap :=
    { (entered.kept kept sound).kept kept' sound with
      kept := by simp [Machine.mapRoots, RootSet.protect]
      holds := hasItems_rerooted empty kept.sound _
      fresh := by
        intro x own rooted
        have entered : (m.mapRoots RootSet.enter).heap.Rooted x := rooted.rerooted (List.Subset.refl _)
        have later : m₁.heap.Rooted x := (kept.around (entered.around fun _ none => none.elim)).rooted
        rcases own with rfl | rfl <;> exact unrooted _ (by simp) later }
  rw [makeWith, run_bind_ok made, run_bind_ok pinned, run_bind]
  have outcome := fills t u _ filling
  generalize (fill t).run _ = result at outcome
  cases outcome with
  | noRoom memory full remains => exact .inl ⟨_, _, rfl, memory, .inr full, remains⟩
  | done filled => exact .inr ⟨t, u, _, rfl, filled⟩

/-- The list `l` has kept its elements `xs`, and all that the roots lead to is as it was. -/
structure Spared (l : Handle) (xs : List Handle) (m m' : Machine) : Prop where
  original : m'.heap.listItems l = .ok xs
  roots : m'.heap.roots = m.heap.roots
  persists : Persists m.heap.Anchored m.heap m'.heap

/-- The new list `t` has the elements `ys`. It shares nothing with `l`, and whatever is
done elsewhere, each of the two lists keeps its elements. -/
structure Beside (l t : Handle) (xs ys : List Handle) (m m' : Machine) : Prop extends Spared l xs m m' where
  contents : m'.heap.listItems t = .ok ys
  fresh : ¬ m.heap.Rooted t
  apart : m'.heap.Apart l t
  unmoved : ∀ m'', Relation.ReflTransGen (Machine.Elsewhere l) m' m'' → m''.heap.listItems l = .ok xs
  unmoved_new : ∀ m'', Relation.ReflTransGen (Machine.Elsewhere t) m' m'' → m''.heap.listItems t = .ok ys

/-- How making a list from the list `l` with the elements `xs` ends: the new list has the
right elements, or the heap had no room for a list of them. -/
inductive Makes (l : Handle) (xs : List Handle) (right : List Handle → Prop) (m : Machine) : Except Error Handle × Machine → Prop
  | made {t : Handle} {ys : List Handle} {m' : Machine} (holds : right ys) (beside : Beside l t xs ys m m') :
      Makes l xs right m (.ok t, m')
  | noRoom {e : Error} {ys : List Handle} {m' : Machine} (memory : e.kind = .memory) (wanted : right ys)
      (full : Cramped ys.length m'.heap) (spared : Spared l xs m m') : Makes l xs right m (.error e, m')

theorem Makes.mono {right' : List Handle → Prop} {result : Except Error Handle × Machine} (makes : Makes l xs right m result)
    (wider : ∀ ys, right ys → right' ys) : Makes l xs right' m result := by
  cases makes with
  | made holds beside => exact .made (wider _ holds) beside
  | noRoom memory wanted full spared => exact .noRoom memory (wider _ wanted) full spared

theorem Makes.beside {m' : Machine} (makes : Makes l xs right m (.ok t, m')) : ∃ ys, right ys ∧ Beside l t xs ys m m' := by
  cases makes with
  | made holds beside => exact ⟨_, holds, beside⟩

theorem makes_filled (regular : m.heap.Regular) (rooted : m.heap.Rooted l) (source : m.heap.HasItems l s xs)
    (keeps : ∀ t, Keeps true (fun _ => True) (fun h => h.Anchored t) (fill t) fun _ h => h.Anchored t)
    (takes : ∀ t, Takes Machine.NoCalls false true (fill t))
    (fills : ∀ t u m', Filling m.heap t u [] m'.heap → Fills m.heap t u ys ((fill t).run m')) (holds : right ys) :
    Makes l xs right m ((guarded (makeWith fill)).run m) := by
  have sound := regular.sound
  have kept : Kept false (fun _ => True) m.heap ((guarded (makeWith fill)).run m).2.heap := (keeps_filled keeps m sound trivial).1
  have steps : Takes Machine.NoCalls false false (guarded (makeWith fill)) :=
    Takes.guarded (takes_new.bind fun t => (takes_protect t).bind fun _ => (takes t).bind fun _ => takes_pure t)
  have regular' := regular.steps (steps m) kept.sound
  rw [run_guarded] at kept regular' ⊢
  have spared : ∀ {m' : Machine} {roots : RootSet}, Remains m.heap m'.heap →
      Kept false (fun _ => True) m.heap { m'.heap with roots := roots } → Spared l xs m (m'.mapRoots fun _ => roots) := by
    intro m' roots remains kept
    have left := remains.left kept
    exact ⟨(source.persists sound.toShaped rooted left.persists).listItems, kept.same_roots, left.persists⟩
  rcases run_makeWith sound fills with ⟨e, m', failed, memory, full, remains⟩ | ⟨t, u, m', made, filling⟩
  · rw [failed] at kept ⊢
    exact .noRoom memory holds full (spared remains kept)
  · rw [made] at kept regular' ⊢
    have spared := spared filling.toRemains kept
    have has := source.persists sound.toShaped rooted spared.persists
    have has' := hasItems_rerooted filling.holds filling.sound (m'.heap.roots.leave m.heap.roots.inFlight.length)
    have fresh : ¬ m.heap.Rooted t := filling.fresh t (.inl rfl)
    have different : l ≠ t := by
      rintro rfl
      exact fresh rooted
    exact .made holds
      { spared with
        contents := has'.listItems
        fresh := fresh
        apart := has.apart has' kept.sound different
        unmoved := fun _ => Machine.unmoved regular' has.listItems
        unmoved_new := fun _ => Machine.unmoved regular' has'.listItems }

/-! ### Repeating, copying and slicing -/

theorem replicate_makes (regular : m.heap.Regular) (rooted : m.heap.Rooted l) (source : m.heap.HasItems l s xs) (n : Int) :
    Makes l xs (· = (List.replicate n.toNat xs).flatten) m ((replicate l n).run m) := by
  rw [replicate_eq, run_bind_ok (run_record source)]
  apply makes_filled regular rooted source
  · exact fun t => (keeps_copyEvery s t 1 xs.length 0).times _
  · exact fun t => (takes_copyEvery s t 1 xs.length 0).times _
  · exact fun t u m' filling => filling.repeated regular.sound rooted source _
  · split
    · rename_i empty
      rw [List.length_eq_zero_iff.1 empty]
      simp
    · rfl

/-- `ys` has the elements of `xs` at the positions `lo`, `lo + step`, … below `hi`. -/
def Every (xs : List Handle) (lo hi step : Nat) (ys : List Handle) : Prop :=
  ∀ k, ys[k]? = if lo + k * step < hi then xs[lo + k * step]? else none

theorem every_picks (lo : Nat) {hi : Nat} (positive : 0 < step) (ends : hi ≤ xs.length) :
    Inside xs step (stepCount lo hi step) lo ∧ Every xs lo hi step (picks xs step (stepCount lo hi step) lo) := by
  have inside : Inside xs step (stepCount lo hi step) lo := by
    intro k less
    have below := (lt_stepCount_iff positive).1 less
    omega
  refine ⟨inside, fun k => ?_⟩
  rw [getElem?_picks inside]
  simp only [lt_stepCount_iff positive]

theorem slice_makes (regular : m.heap.Regular) (rooted : m.heap.Rooted l) (source : m.heap.HasItems l s xs) (start stop : Int)
    {step : Int} (positive : 0 < step) :
    Makes l xs (Every xs (nearest start 0 xs.length) (nearest stop 0 xs.length) step.toNat) m
      ((slice l start stop step).run m) := by
  have checked : checkStep step = .ok step.toNat := by
    rw [checkStep, if_neg (by omega), if_neg (by omega)]
  have short := regular.short source.storage
  rw [slice_eq, run_bind_ok (run_record source), run_bind_ok (run_inspect_ok checked)]
  simp only [clamp_eq_nearest _ _ short, extract_eq]
  have ends : nearest stop 0 xs.length ≤ xs.length := by
    rw [← clamp_eq_nearest stop 0 short]
    exact clamp_le stop (Nat.zero_le _)
  obtain ⟨inside, every⟩ := every_picks (nearest start 0 xs.length) (by omega : 0 < step.toNat) ends
  apply makes_filled regular rooted source
  · exact fun t => keeps_copyEvery s t _ _ _
  · exact fun t => takes_copyEvery s t _ _ _
  · exact fun t u m' filling => filling.copied regular.sound rooted source inside
  · exact every

/-- A step that is not positive is refused. -/
theorem slice_refuses (source : m.heap.HasItems l s xs) (start stop : Int) {step : Int} (refused : step ≤ 0) :
    ∃ e, (slice l start stop step).run m = (.error e, m) ∧ e.kind = .value := by
  have checked : ∃ e, checkStep step = .error e ∧ e.kind = .value := by
    unfold checkStep
    split
    · exact ⟨_, rfl, rfl⟩
    · rw [if_pos (by omega)]
      exact ⟨_, rfl, rfl⟩
  obtain ⟨e, failed, value⟩ := checked
  refine ⟨e, ?_, value⟩
  rw [slice_eq, run_bind_ok (run_record source), run_bind_error (by rw [run_inspect, failed])]

/-- A copy is found to be the same as the list, also when the list contains itself. -/
theorem compare_of_copy {m' : Machine} (regular : m.heap.Regular) (rooted : m.heap.Rooted l) (source : m.heap.HasItems l s xs)
    (made : (copy l).run m = (.ok t, m')) : m'.heap.compare t l = .ok .same ∧ m'.heap.compare l t = .ok .same := by
  have kept : Kept false (fun _ => True) m.heap ((copy l).run m).2.heap := (keeps_replicate l 1 m regular.sound trivial).1
  have makes := replicate_makes regular rooted source 1
  change Makes l xs _ m ((copy l).run m) at makes
  rw [made] at makes kept
  obtain ⟨ys, holds, beside⟩ := makes.beside
  obtain rfl : ys = xs := holds.trans (by simp)
  obtain ⟨u, has⟩ := kept.sound.hasItems_of_listItems beside.contents
  obtain ⟨v, has'⟩ := kept.sound.hasItems_of_listItems beside.original
  exact ⟨has.compare has' kept.sound, has'.compare has kept.sound⟩

end ListObject

/-! ### Slices named by slice objects -/

namespace Heap

variable {h g : Heap} {bound kept start stop step : Option Handle} {slice : Handle} {r : SliceRecord}

/-- The number that a bound of a slice stands for: the value of an integer object, and
otherwise the default. -/
def endpoint (h : Heap) (bound : Option Handle) (default : Int) : Int :=
  match bound.bind h.find? with
  | some (.int v) => v.toInt
  | _ => default

/-- A bound is kept if it is an integer object, and dropped if it is None. -/
theorem sliceBound_kinds (headed : h.Headed) (read : h.sliceBound bound = .ok kept) :
    (kept = none ∧ ∀ default, h.endpoint bound default = default) ∨
      ∃ x v, bound = some x ∧ kept = some x ∧ h.find? x = some (.int v) := by
  cases bound with
  | none =>
    cases read
    exact .inl ⟨rfl, fun _ => rfl⟩
  | some x =>
    rw [sliceBound, headed.tagOf_eq] at read
    cases found : h.find? x with
    | none =>
      rw [payload_eq, found] at read
      cases read
    | some p =>
      rw [payload_ok found] at read
      cases p with
      | none =>
        cases read
        exact .inl ⟨rfl, fun _ => by rw [endpoint, Option.bind_some, found]⟩
      | int v =>
        cases read
        exact .inr ⟨x, v, rfl, rfl, found⟩
      | _ => cases read

theorem boundValue_of_sliceBound (headed : h.Headed) (read : h.sliceBound bound = .ok kept)
    (same : ∀ x ∈ kept, g.find? x = h.find? x) (default : Int) :
    g.boundValue kept default = .ok (h.endpoint bound default) := by
  rcases sliceBound_kinds headed read with ⟨rfl, absent⟩ | ⟨x, v, rfl, rfl, found⟩
  · rw [absent]
    rfl
  · have there : g.find? x = some (.int v) := (same x rfl).trans found
    rw [boundValue, intValue, payload_ok there, endpoint, Option.bind_some, found]
    rfl

/-- The bounds that a slice keeps are integer objects. -/
theorem int_of_sliceOf (headed : h.Headed) (made : h.sliceOf start stop step = .ok r) {x : Handle}
    (member : x ∈ (Payload.slice r).children) : ∃ v, h.find? x = some (.int v) := by
  obtain ⟨first, second, third⟩ := sliceOf_bounds made
  have each : ∀ {bound kept : Option Handle}, h.sliceBound bound = .ok kept → x ∈ kept.toList → ∃ v, h.find? x = some (.int v) := by
    intro bound kept read here
    rcases sliceBound_kinds headed read with ⟨rfl, -⟩ | ⟨y, v, -, rfl, found⟩
    · cases here
    · obtain rfl : x = y := by simpa using here
      exact ⟨v, found⟩
  simp only [Payload.children, List.mem_append] at member
  rcases member with (here | here) | here
  · exact each first here
  · exact each second here
  · exact each third here

end Heap

namespace SliceObject

variable {m m₀ m₁ : Machine} {start stop step : Option Handle} {slice : Handle}

/-- A slice object keeps the bounds that are integer objects, and these are as they were. -/
theorem new_spec (sound : m₀.heap.Sound none) (made : (new start stop step).run m₀ = (.ok slice, m₁)) :
    ∃ r, m₀.heap.sliceOf start stop step = .ok r ∧ m₁.heap.find? slice = some (.slice r) ∧
      ∀ x ∈ (Payload.slice r).children, m₁.heap.find? x = m₀.heap.find? x := by
  cases checked : m₀.heap.sliceOf start stop step with
  | error e =>
    rw [new, run_bind_error (by rw [run_inspect, checked])] at made
    cases made
  | ok r =>
    have ints : ∀ x ∈ (Payload.slice r).children, ∃ v, m₀.heap.find? x = some (.int v) :=
      fun x => int_of_sliceOf sound.headed checked
    have elements : ∀ x ∈ (Payload.slice r).children, m₀.heap.Element x := by
      intro x member
      obtain ⟨v, found⟩ := ints x member
      exact ⟨_, found, by simp [Payload.tag]⟩
    rw [new, run_bind_ok (run_inspect_ok checked)] at made
    rcases allocate_outcome (.slice r) sound elements (by simp [Payload.tag]) (by simp [Payload.tag]) rfl rfl with
      ⟨e, m', failed, -⟩ | ⟨x, m', g, ran, -, between, swept, entered⟩
    · rw [failed] at made
      cases made
    · rw [ran] at made
      cases made
      obtain ⟨persists, -⟩ := entered.persists swept sound between (by simp [Payload.tag]) (by simp [Payload.tag])
      refine ⟨r, rfl, entered.here, fun y member => ?_⟩
      obtain ⟨v, found⟩ := ints y member
      have within : m₀.heap.Within (Payload.slice r).children y := ⟨.start (List.mem_append_right _ member), elements y member⟩
      rw [persists.find? within found (by simp [Payload.tag]) (by simp [Payload.tag]), found]

/-- What a slice object names in a sequence, as long as it and its bounds hold what they
held when it was made. -/
theorem sliceIndices_of_new (sound : m₀.heap.Sound none) (made : (new start stop step).run m₀ = (.ok slice, m₁))
    (same : ∀ x, some x ∈ [some slice, start, stop, step] → m.heap.find? x = m₁.heap.find? x) (length : Nat) :
    m.heap.sliceIndices slice length =
      .ok (m₀.heap.endpoint start 0, m₀.heap.endpoint stop (Position.signedWord length), m₀.heap.endpoint step 1) := by
  obtain ⟨r, checked, found, kept⟩ := new_spec sound made
  obtain ⟨first, second, third⟩ := sliceOf_bounds checked
  have given : ∀ x ∈ (Payload.slice r).children, m.heap.find? x = m₀.heap.find? x := by
    intro x member
    refine (same x ?_).trans (kept x member)
    have bound := sliceOf_refs checked member
    simp only [List.mem_append, Option.mem_toList] at bound
    rcases bound with (rfl | rfl) | rfl <;> simp
  have record : m.heap.sliceRecord slice = .ok r := sliceRecord_eq_ok_iff.2 ((same slice (by simp)).trans found)
  have value : ∀ {bound kept : Option Handle} (default : Int), m₀.heap.sliceBound bound = .ok kept →
      kept.toList ⊆ (Payload.slice r).children → m.heap.boundValue kept default = .ok (m₀.heap.endpoint bound default) := by
    intro bound kept default read subset
    apply boundValue_of_sliceBound sound.headed read
    exact fun x member => given x (subset (Option.mem_toList.2 member))
  rw [sliceIndices, record]
  simp only [bind, Except.bind]
  rw [value 0 first (by simp [Payload.children]), value _ second (by simp [Payload.children]),
    value 1 third (by simp [Payload.children])]
  rfl

end SliceObject

namespace ListObject

open Position

variable {m : Machine} {l : Handle} {xs : List Handle}

/-- **Exact and independent copies.** -/
theorem makes_exact_copies (regular : m.heap.Regular) (rooted : m.heap.Rooted l) (contents : m.heap.listItems l = .ok xs) :
    (∀ n : Int, Makes l xs (· = (List.replicate n.toNat xs).flatten) m ((replicate l n).run m)) ∧
    Makes l xs (· = xs) m ((copy l).run m) ∧
    (∀ t m', (copy l).run m = (.ok t, m') → m'.heap.compare t l = .ok .same ∧ m'.heap.compare l t = .ok .same) ∧
    (∀ start stop step : Int, 0 < step →
      Makes l xs (Every xs (nearest start 0 xs.length) (nearest stop 0 xs.length) step.toNat) m
        ((slice l start stop step).run m)) ∧
    (∀ start stop step : Int, step ≤ 0 → ∃ e, (slice l start stop step).run m = (.error e, m) ∧ e.kind = .value) ∧
    (∀ (start stop step : Option Handle) (bounds : Handle) (m₀ m₁ : Machine), m₀.heap.Sound none →
      (SliceObject.new start stop step).run m₀ = (.ok bounds, m₁) →
      (∀ x, some x ∈ [some bounds, start, stop, step] → m.heap.find? x = m₁.heap.find? x) →
      (sliceBy l bounds).run m =
        (slice l (m₀.heap.endpoint start 0) (m₀.heap.endpoint stop xs.length) (m₀.heap.endpoint step 1)).run m) := by
  obtain ⟨s, source⟩ := regular.sound.hasItems_of_listItems contents
  refine ⟨?_, ?_, ?_, ?_, ?_, ?_⟩
  · exact replicate_makes regular rooted source
  · apply (replicate_makes regular rooted source 1).mono
    intro ys holds
    exact holds.trans (by simp)
  · exact fun t m' made => compare_of_copy regular rooted source made
  · exact fun start stop step positive => slice_makes regular rooted source start stop positive
  · exact fun start stop step refused => slice_refuses source start stop refused
  · intro start stop step bounds m₀ m₁ sound made same
    have indices := SliceObject.sliceIndices_of_new sound made same xs.length
    rw [signedWord_of_lt (regular.short source.storage)] at indices
    rw [sliceBy, run_bind_ok (run_inspect_ok source.listLength), run_bind_ok (run_inspect_ok indices)]

/-- A heap with room for some copies. -/
def ample : HeapConfig := { arenaBytes := 300, maxChunkBytes := 64 }

/-- Make a list that contains itself twice, and an integer. -/
def knotting : List Call :=
  [.create .list, .pushRoot ⟨5⟩] ++ [⟨5⟩, ⟨1⟩, ⟨5⟩, ⟨2⟩].map (fun x => .update (.listAppend ⟨5⟩ x)) ++
    [.create (.int 2), .pushRoot ⟨7⟩]

abbrev unsliced : Machine := Client.ended ample knotting

/-- With a slice that has no start, ends before the last element and takes every second one. -/
abbrev knotted : Machine :=
  Client.ended ample (knotting ++ [.create (.slice (some ⟨0⟩) (some ⟨1⟩) (some ⟨7⟩))])

/-- The list twice over, and the slice of it. -/
abbrev doubled : Machine := ((replicate ⟨5⟩ 2).run knotted).2

abbrev sliced : Machine := ((slice ⟨5⟩ 0 (-1) 2).run knotted).2

/-- A copy is made, it becomes a root, and then longer. -/
abbrev copied : Machine := ((copy ⟨5⟩).run knotted).2

abbrev adopted : Machine := copied.mapRoots fun _ => copied.heap.roots.push ⟨10⟩

abbrev extended : Machine := (((ListChange.call (.append ⟨1⟩)).onHeap ⟨10⟩).run adopted).2

theorem extended_elsewhere : Relation.ReflTransGen (Machine.Elsewhere ⟨5⟩) copied extended := by
  have root : Machine.Elsewhere ⟨5⟩ copied adopted := .reroot (copied.heap.roots.push ⟨10⟩) (by decide +kernel)
  have contents : adopted.heap.listItems ⟨10⟩ = .ok [⟨5⟩, ⟨1⟩, ⟨5⟩, ⟨2⟩] := by decide +kernel
  have live : adopted.heap.Element ⟨1⟩ := by decide +kernel
  have change : Machine.Elsewhere ⟨5⟩ adopted extended := by
    apply Machine.Elsewhere.change _ _ _ _ contents
    · intro x member
      rw [List.mem_singleton.1 member]
      exact live
    · decide
    · exact .start (by decide +kernel)
    · exact .start (by decide +kernel)
  exact .tail (.single root) change

theorem makes_exact_copies_knotted :
    knotted.heap.Regular ∧ knotted.heap.Rooted ⟨5⟩ ∧ knotted.heap.listItems ⟨5⟩ = .ok [⟨5⟩, ⟨1⟩, ⟨5⟩, ⟨2⟩] ∧
      (replicate ⟨5⟩ 2).run knotted = (.ok ⟨10⟩, doubled) ∧
      doubled.heap.listItems ⟨10⟩ = .ok [⟨5⟩, ⟨1⟩, ⟨5⟩, ⟨2⟩, ⟨5⟩, ⟨1⟩, ⟨5⟩, ⟨2⟩] ∧
      Makes ⟨5⟩ [⟨5⟩, ⟨1⟩, ⟨5⟩, ⟨2⟩] (· = [⟨5⟩, ⟨1⟩, ⟨5⟩, ⟨2⟩, ⟨5⟩, ⟨1⟩, ⟨5⟩, ⟨2⟩]) knotted (.ok ⟨10⟩, doubled) ∧
      (copy ⟨5⟩).run knotted = (.ok ⟨10⟩, copied) ∧ copied.heap.compare ⟨10⟩ ⟨5⟩ = .ok .same ∧
      extended.heap.listItems ⟨10⟩ = .ok [⟨5⟩, ⟨1⟩, ⟨5⟩, ⟨2⟩, ⟨1⟩] ∧ extended.heap.listItems ⟨5⟩ = .ok [⟨5⟩, ⟨1⟩, ⟨5⟩, ⟨2⟩] ∧
      (slice ⟨5⟩ 0 (-1) 2).run knotted = (.ok ⟨10⟩, sliced) ∧ sliced.heap.listItems ⟨10⟩ = .ok [⟨5⟩, ⟨5⟩] ∧
      Makes ⟨5⟩ [⟨5⟩, ⟨1⟩, ⟨5⟩, ⟨2⟩] (Every [⟨5⟩, ⟨1⟩, ⟨5⟩, ⟨2⟩] 0 3 2) knotted (.ok ⟨10⟩, sliced) ∧
      (∃ e, (slice ⟨5⟩ 0 (-1) 0).run knotted = (.error e, knotted) ∧ e.kind = .value) ∧
      (sliceBy ⟨5⟩ ⟨8⟩).run knotted = (.ok ⟨10⟩, sliced) := by
  have regular : knotted.heap.Regular := Client.regular_ended (by decide +kernel)
  have rooted : knotted.heap.Rooted ⟨5⟩ := .start (by decide +kernel)
  have contents : knotted.heap.listItems ⟨5⟩ = .ok [⟨5⟩, ⟨1⟩, ⟨5⟩, ⟨2⟩] := by decide +kernel
  have made : ∀ op : HeapM Handle, (op.run knotted).1 = .ok ⟨10⟩ → op.run knotted = (.ok ⟨10⟩, (op.run knotted).2) :=
    fun _ outcome => Prod.ext outcome rfl
  have twice : (replicate ⟨5⟩ 2).run knotted = (.ok ⟨10⟩, doubled) := made _ (by decide +kernel)
  have part : (slice ⟨5⟩ 0 (-1) 2).run knotted = (.ok ⟨10⟩, sliced) := made _ (by decide +kernel)
  have ran : (copy ⟨5⟩).run knotted = (.ok ⟨10⟩, copied) := made _ (by decide +kernel)
  have repeated : doubled.heap.listItems ⟨10⟩ = .ok [⟨5⟩, ⟨1⟩, ⟨5⟩, ⟨2⟩, ⟨5⟩, ⟨1⟩, ⟨5⟩, ⟨2⟩] := by decide +kernel
  have selected : sliced.heap.listItems ⟨10⟩ = .ok [⟨5⟩, ⟨5⟩] := by decide +kernel
  have longer : extended.heap.listItems ⟨10⟩ = .ok [⟨5⟩, ⟨1⟩, ⟨5⟩, ⟨2⟩, ⟨1⟩] := by decide +kernel
  have bounds : (SliceObject.new (some ⟨0⟩) (some ⟨1⟩) (some ⟨7⟩)).run unsliced = (.ok ⟨8⟩, knotted) := by rfl
  have sound : unsliced.heap.Sound none := (Client.regular_ended (by decide +kernel)).sound
  have start : unsliced.heap.endpoint (some ⟨0⟩) 0 = 0 := by decide +kernel
  have stop : unsliced.heap.endpoint (some ⟨1⟩) 4 = -1 := by decide +kernel
  have step : unsliced.heap.endpoint (some ⟨7⟩) 1 = 2 := by decide +kernel
  obtain ⟨repeats, copies, compares, slices, refuses, named⟩ := makes_exact_copies regular rooted contents
  refine ⟨regular, rooted, contents, twice, repeated, ?_, ran, (compares _ _ ran).1, longer, ?_, part, selected, ?_,
    refuses 0 (-1) 0 (by decide), ?_⟩
  · have makes := repeats 2
    rwa [twice] at makes
  · rw [ran] at copies
    obtain ⟨ys, -, beside⟩ := copies.beside
    exact beside.unmoved extended extended_elsewhere
  · have first : nearest 0 0 4 = 0 := by decide
    have last : nearest (-1) 0 4 = 3 := by decide
    have makes := slices 0 (-1) 2 (by decide)
    rw [part] at makes
    apply makes.mono
    intro ys every
    exact first ▸ last ▸ every
  · have numbers : ∀ a b c, a = 0 → b = -1 → c = 2 → (slice ⟨5⟩ a b c).run knotted = (slice ⟨5⟩ 0 (-1) 2).run knotted := by
      rintro _ _ _ rfl rfl rfl
      rfl
    have same := numbers _ _ _ start stop step
    exact (named _ _ _ _ _ _ sound bounds fun _ _ => rfl).trans (same.trans part)

end ListObject

end ChunkHeap

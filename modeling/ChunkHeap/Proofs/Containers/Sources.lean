import ChunkHeap.Proofs.Containers.Splices

/-!
# Elements that nothing keeps

The list or tuple that supplies the elements for a slice need not be within reach of
the roots. Its elements have been read before the list grows, and when a growing list
makes room by a collection, those of them that the roots do not lead to are freed; they
are stored all the same.

`Heap.Sifted` says of the objects of a heap what has become of them: without a collection
all are there, with one only those that the roots led to. The insertions leave a sound
heap, so that this can be followed from one to the next; storing elements that are gone
does not, and is described by the chain of the list alone.
-/

namespace ChunkHeap
set_option autoImplicit false

open HeapM Heap

namespace Heap

variable {h g k : Heap} {l s x y : Handle} {c c' : Chain} {xs ys : List Handle} {pin : Option Handle}

/-- From `h` to `g` no object but the list `l` and its storage `s` was written, and only
collections freed any. -/
structure Sifted (l s : Handle) (h g : Heap) : Prop where
  counted : h.collections ≤ g.collections
  idle : g.collections = h.collections → ∀ y, h.Element y → ¬ Own l s y → g.find? y = h.find? y
  old : ∀ y, g.Element y → ¬ Own l s y → h.find? y = g.find? y
  lost : g.collections ≠ h.collections → ∀ y, g.Element y → ¬ Own l s y → h.Rooted y

theorem Element.congr (element : h.Element y) (same : g.find? y = h.find? y) : g.Element y := by
  obtain ⟨p, found, tag⟩ := element
  exact ⟨p, same.trans found, tag⟩

namespace Sifted

theorem refl (l s : Handle) (h : Heap) : Sifted l s h h where
  counted := Nat.le_refl _
  idle _ _ _ _ := rfl
  old _ _ _ := rfl
  lost differ := absurd rfl differ

/-- In order that what a later collection frees can be told from the heap at first, the
roots must not lead to more than they did. -/
theorem trans (first : Sifted l s h g) (second : Sifted l s g k)
    (back : k.collections ≠ g.collections → ∀ y, g.Anchored y → ¬ Own l s y → h.Rooted y) : Sifted l s h k where
  counted := Nat.le_trans first.counted second.counted
  idle same y element other := by
    have earlier := first.counted
    have later := second.counted
    have kept := first.idle (by omega) y element other
    exact (second.idle (by omega) y (element.congr kept) other).trans kept
  old y element other := by
    have before := second.old y element other
    exact (first.old y (element.congr before) other).trans before
  lost differ y element other := by
    have before := element.congr (second.old y element other)
    by_cases same : k.collections = g.collections
    · exact first.lost (fun equal => differ (same.trans equal)) y before other
    · exact back same y ⟨second.lost same y element other, before⟩ other

end Sifted

/-- A collection for an object that is within reach anyway. -/
theorem Cleared.sifted (cleared : Cleared pin h g) (ok : h.Accounted) (pinned : ∀ x ∈ pin, h.Rooted x) : Sifted l s h g := by
  rcases cleared with rfl | ⟨x, member, -, rfl | rfl⟩
  · exact .refl l s g
  · exact .refl l s g
  · have counted : (h.collectWith [x]).heap.collections = h.collections + 1 := by simp only [collectWith_heap]
    constructor
    · omega
    · intro same
      omega
    · rintro y ⟨p, found, -⟩ -
      rw [found, ((find?_collectWith ok.arena).1 found).1]
    · rintro - y ⟨p, found, -⟩ -
      refine reaches_trans (fun z start => ?_) ((find?_collectWith ok.arena).1 found).2
      simp only [collectionRoots, List.mem_append, List.mem_singleton] at start
      rcases start with root | rfl
      · exact .start (by simpa [collectionRoots] using root)
      · exact pinned z member

theorem Rechained.sifted (changed : Rechained s c h g c') (carries : h.Carries s c) : Sifted l s h g where
  counted := Nat.le_of_eq changed.collections.symm
  idle := by
    rintro - y ⟨p, found, tag⟩ other
    rw [found, (changed.untouched found (fun same => other (.inr same)) (carries.linked.ne_segment found tag)).2]
  old := by
    rintro y ⟨p, found, tag⟩ other
    rw [found, (changed.was_there found (fun same => other (.inr same)) (changed.here.linked.ne_segment found tag)).2]
  lost differ := absurd changed.collections differ

theorem Edited.sifted (edited : Edited (· = l) h g) : Sifted l s h g where
  counted := Nat.le_of_eq edited.collections.symm
  idle _ y _ other := edited.outside y fun same => other (.inl same)
  old y _ other := (edited.outside y fun same => other (.inl same)).symm
  lost differ := absurd edited.collections differ

/-- When all that a list has come to refer to was within reach, the roots lead to
nothing that they did not lead to. -/
theorem Altered.rooted_before (altered : Altered (Own l s) h g) (sound : h.Sound none) (before : h.HasItems l s xs)
    (rooted : h.Rooted l) (after : g.HasItems l s ys) (known : ∀ y ∈ ys, h.Rooted y) (anchored : g.Anchored y) :
    h.Rooted y := by
  refine altered.sound.toShaped.reaches_induction altered.sound.unsegmented ?_ ?_ anchored.1 anchored.2
  · intro x root
    rw [altered.collectionRoots] at root
    exact .start root
  · intro x content reached shown y ref
    by_cases list : x = l
    · subst list
      rw [after.record] at shown
      cases shown
      obtain rfl : y = s := by simpa [Content.refs, Payload.refs, Payload.children] using ref
      exact before.rooted_storage rooted
    by_cases storage : x = s
    · subst storage
      rw [after.storage] at shown
      cases shown
      exact known y ref
    · exact sound.toShaped.reaches_ref reached (altered.old x content (fun own => own.elim list storage) shown) ref

theorem chainItems_rerooted (h : Heap) (roots : RootSet) (n : Nat) (seg : Option Handle) :
    { h with roots := roots }.chainItems n seg = h.chainItems n seg := by
  induction n generalizing seg with
  | zero => cases seg <;> rfl
  | succ n ih =>
    cases seg with
    | none => rfl
    | some x =>
      unfold chainItems
      simp only [ih]
      rfl

/-- What a list holds does not depend on the roots. -/
theorem listItems_rerooted (h : Heap) (roots : RootSet) (l : Handle) :
    { h with roots := roots }.listItems l = h.listItems l := by
  unfold listItems segListItems
  simp only [chainItems_rerooted]
  rfl

end Heap

namespace ListObject

variable {m m' m₁ : Machine} {l s x source : Handle} {xs ys items : List Handle} {c : Chain} {pin : Option Handle}
  {op : HeapM Unit} {index : Int} {i n lo hi : Nat}

/-! ### Bringing the list to its length -/

theorem recount_edited (resize : Nat → Nat) (sound : m.heap.Sound none) (has : m.heap.HasItems l s xs)
    (held : m.heap.Held pin l) (ran : op.run m = (.ok (), m₁)) (filled : Filled pin s c ys m.heap (.ok (), m₁)) :
    ∃ m', (do op; modifyRecord l fun r => { r with length := resize r.length }).run m = (.ok (), m') ∧
      Edited (· = l) m₁.heap m'.heap := by
  have found : m₁.heap.find? l = some (.list ⟨xs.length, s⟩) := (filled.find? sound held has.ne).trans has.find?
  obtain ⟨m', wrote, edited, -⟩ := modifyRecord_spec (fun r => { r with length := resize r.length }) found
  exact ⟨m', by rw [run_bind_ok ran, wrote], edited⟩

/-- An insertion of something within reach. -/
theorem insert_sifted (sound : m.heap.Sound none) (has : m.heap.HasItems l s xs) (rooted : m.heap.Rooted l)
    (filler : m.heap.Anchored x) (ran : (insert l index x).run m = (.ok (), m')) : Sifted l s m.heap m'.heap := by
  obtain ⟨c, carries, items⟩ := sound.carries_of_items has.storage
  have inside : Position.clamp index 0 xs.length ≤ xs.length := Position.clamp_le index (Nat.zero_le _)
  have filled := SegList.insert_filled sound.orderly carries (has.rooted_storage rooted) filler.2 (items ▸ inside)
  rw [insert, run_bind_ok (run_record has)] at ran
  rcases stored : (SegList.insert s x (Position.clamp index 0 xs.length)).run m with ⟨e | ⟨⟩, m₁⟩
  · rw [run_bind_error stored] at ran
    cases ran
  · rw [items, stored] at filled
    obtain ⟨m₂, counted, edited⟩ := recount_edited (· + 1) sound has (Anchored.held ⟨rooted, has.element⟩) stored filled
    rw [counted] at ran
    cases ran
    cases filled with
    | filled cleared carries' changed _ _ =>
      have swept : Sifted l s _ _ := cleared.sifted sound.accounted fun y same => by cases same; exact filler.1
      have grown := swept.trans (changed.sifted carries') fun differ => absurd changed.collections differ
      exact grown.trans edited.sifted fun differ => absurd edited.collections differ

theorem times_insert_sifted (sound : m.heap.Sound none) (has : m.heap.HasItems l s xs) (list : m.heap.Anchored l)
    (filler : m.heap.Anchored x) (ran : (times n (insert l index x)).run m = (.ok (), m')) : Sifted l s m.heap m'.heap := by
  induction n generalizing m xs with
  | zero =>
    cases ran
    exact .refl l s _
  | succ n ih =>
    rw [times] at ran
    rcases insert_relisted sound has list.1 filler.2 index with ⟨e, m₁, failed, -, -⟩ | ⟨m₁, done, relisted⟩
    · rw [run_bind_error failed] at ran
      cases ran
    · rw [run_bind_ok done] at ran
      have rest := ih relisted.sound relisted.items (relisted.held l list) (relisted.held x filler) ran
      refine (insert_sifted sound has list.1 filler done).trans rest fun _ y anchored _ => ?_
      have effect := insert_effect sound has list.1 filler.2 index
      rw [done] at effect
      cases effect with
      | done altered after =>
        refine altered.rooted_before sound has list.1 after (fun z member => ?_) anchored
        have inside : Position.clamp index 0 xs.length ≤ xs.length := Position.clamp_le index (Nat.zero_le _)
        rcases List.mem_cons.1 ((List.perm_insertIdx x xs inside).mem_iff.1 member) with rfl | element
        · exact filler.1
        · exact (sound.found_listItems has.listItems z element).2 list.1

/-- Removing elements is done without a collection. -/
theorem removeAt_collections (sound : m.heap.Sound none) (has : m.heap.HasItems l s xs)
    (named : Position.element? index xs.length = some i) :
    ((removeAt l index).run m).2.heap.collections = m.heap.collections := by
  obtain ⟨c, carries, items⟩ := sound.carries_of_items has.storage
  obtain ⟨m₁, removed, filled⟩ := SegList.remove_filled sound.orderly carries (items ▸ Position.element?_lt named)
  have held : m.heap.Held none l := has.element
  obtain ⟨m₂, counted, edited⟩ := recount_edited (· - 1) sound has held removed filled
  have steady : m₁.heap.collections = m.heap.collections := by
    cases filled with
    | filled cleared _ changed _ _ =>
      rcases cleared with rfl | ⟨x, pinned, -⟩
      · exact changed.collections
      · cases pinned
  rw [removeAt, run_bind_ok (run_record has), run_bind_ok (run_position_ok (r := ⟨xs.length, s⟩) named), counted]
  exact edited.collections.trans steady

theorem times_removeAt_collections (sound : m.heap.Sound none) (has : m.heap.HasItems l s xs) (inside : lo + n ≤ xs.length) :
    ((times n (removeAt l lo)).run m).2.heap.collections = m.heap.collections := by
  induction n generalizing m xs with
  | zero => rfl
  | succ n ih =>
    have named : Position.element? lo xs.length = some lo := Position.element?_natCast (by omega)
    obtain ⟨m₁, removed, relisted⟩ := removeAt_relisted sound has named
    have shorter : lo + n ≤ (xs.eraseIdx lo).length := by
      rw [List.length_eraseIdx_of_lt (by omega)]
      omega
    have first := removeAt_collections sound has named
    rw [removed] at first
    rw [times, run_bind_ok removed, ih relisted.sound relisted.items shorter, first]

/-! ### Storing elements that may be gone -/

/-- Storing needs the chain of the list only. -/
theorem storeFrom_sifted (lo : Nat) (items : List Handle) (carries : m.heap.Carries s c)
    (record : m.heap.find? l = some (.list ⟨xs.length, s⟩)) (contents : (c.map Prod.snd).flatten = xs)
    (inside : lo + items.length ≤ xs.length) :
    ∃ m', (storeFrom l lo items).run m = (.ok (), m') ∧
      m'.heap.HasItems l s (xs.take lo ++ (items ++ xs.drop (lo + items.length))) ∧
      m'.heap.collections = m.heap.collections ∧ Sifted l s m.heap m'.heap := by
  induction items generalizing m xs c lo with
  | nil =>
    refine ⟨m, rfl, ⟨?_, ?_⟩, rfl, .refl l s m.heap⟩
    · exact content?_of_record (by simpa using record) (by simp [Payload.tag]) (by simp [Payload.tag])
    · simpa [contents] using carries.content?
  | cons x items ih =>
    rw [List.length_cons] at inside
    have named : Position.element? lo xs.length = some lo := Position.element?_natCast (by omega)
    obtain ⟨r, found, chained⟩ := id carries
    obtain ⟨m₁, c', stored, changed, replaced⟩ :=
      SegList.set_spec x found chained (by rw [chained.length, contents]; omega : lo < r.length)
    have record' : m₁.heap.find? l = some (.list ⟨(xs.set lo x).length, s⟩) := by
      have apart : l ≠ s := by
        rintro rfl
        rw [found] at record
        cases record
      rw [List.length_set]
      exact (changed.untouched record apart (carries.linked.ne_segment record (by simp [Payload.tag]))).2
    have set : (set l lo x).run m = (.ok (), m₁) := by
      rw [ListObject.set, run_bind_ok (run_inspect_ok (listRecord_eq_ok_iff.2 record)),
        run_bind_ok (run_position_ok (r := ⟨xs.length, s⟩) named), stored]
    obtain ⟨m', ran, has, still, sifted⟩ := ih (lo + 1) changed.here record' (by rw [replaced, contents])
      (by rw [List.length_set]; omega)
    rw [splice_set items (by omega)] at has
    refine ⟨m', by rw [storeFrom, run_bind_ok set]; exact ran, has, still.trans changed.collections, ?_⟩
    exact (changed.sifted carries).trans sifted fun differ => absurd still differ

/-! ### The operation -/

/-- The list `l` has come to have `items` in place of its elements from `lo` to `hi`. -/
structure Taken (l s : Handle) (xs items : List Handle) (lo hi : Nat) (h g : Heap) : Prop where
  contents : g.listItems l = .ok (xs.take lo ++ (items ++ xs.drop hi))
  /-- An element is live and what it was just in case there was no collection or the
  roots led to it. -/
  elements : ∀ y ∈ xs.take lo ++ (items ++ xs.drop hi), Outlasts l s h g y ↔ g.collections = h.collections ∨ h.Rooted y
  /-- The elements that the list had are within reach of the roots in any case. -/
  safe : g.collections = h.collections ∨ (∀ y ∈ items, h.Rooted y) →
    ∀ y ∈ xs.take lo ++ (items ++ xs.drop hi), Outlasts l s h g y
  /-- Nothing is collected for elements that are not more than those that they replace. -/
  still : items.length ≤ hi - lo → g.collections = h.collections

theorem outlasts_of_hasItems {h g : Heap} {y : Handle} (has : g.HasItems l s xs) (element : h.Element y)
    (same : ¬ Own l s y → g.find? y = h.find? y) : Outlasts l s h g y := by
  refine outlasts ?_ same
  by_cases own : Own l s y
  · rcases own with rfl | rfl
    · exact has.element
    · obtain ⟨r, found⟩ := (segListItems_of_items has.storage).1
      exact ⟨_, found, by simp [Payload.tag]⟩
  · exact element.congr (same own)

/-- Old elements are rooted, so that it is the new ones that matter. -/
theorem taken_of_elements {h g : Heap} (contents : g.listItems l = .ok (xs.take lo ++ (items ++ xs.drop hi)))
    (elements : ∀ y ∈ xs.take lo ++ (items ++ xs.drop hi), Outlasts l s h g y ↔ g.collections = h.collections ∨ h.Rooted y)
    (old : ∀ y ∈ xs, h.Rooted y) (still : items.length ≤ hi - lo → g.collections = h.collections) :
    Taken l s xs items lo hi h g := by
  refine ⟨contents, elements, fun safe y member => (elements y member).2 (safe.imp_right fun new => ?_), still⟩
  exact (mem_splice member).elim (old y) (new y)

section Resettling

variable (regular : m.heap.Regular) (has : m.heap.HasItems l s xs) (list : m.heap.Anchored l) (ordered : lo ≤ hi)
  (inside : hi ≤ xs.length) (old : ∀ y ∈ xs, m.heap.Rooted y)
  (all : ∀ y ∈ xs.take lo ++ (items ++ xs.drop hi), m.heap.Element y)

include regular has ordered inside old all

/-- A list that does not grow collects nothing. -/
theorem resettle_takes_over (fewer : items.length ≤ hi - lo)
    (ran : (resettle l x items (hi - lo - items.length) 0 lo).run m = (.ok (), m')) :
    Taken l s xs items lo hi m.heap m'.heap := by
  have length : lo + (hi - lo - items.length) ≤ xs.length := by omega
  obtain ⟨m₁, shrunk, relisted⟩ := times_removeAt regular.sound has length
  have quiet := times_removeAt_collections regular.sound has length
  obtain ⟨c, carries, contents⟩ := relisted.sound.carries_of_items relisted.items.storage
  obtain ⟨m₂, stored, after, still, sifted⟩ :=
    storeFrom_sifted lo items carries relisted.items.find? contents (by simp; omega)
  rw [resettle, run_bind_ok shrunk, times, pure_bind, stored] at ran
  cases ran
  rw [shrunk] at quiet
  rw [splice_shrunk ordered inside fewer] at after
  have uncollected := still.trans quiet
  refine taken_of_elements after.listItems (fun y member => ⟨fun _ => .inl uncollected, fun _ => ?_⟩) old fun _ => uncollected
  refine outlasts_of_hasItems after (all y member) fun other => ?_
  exact (sifted.idle still y (relisted.held y (all y member)) other).trans (relisted.same y (all y member) other)

include list

/-- A list that grows may have to collect for it, while the new elements are nowhere. -/
theorem resettle_takes_in (filler : m.heap.Anchored x) (longer : hi - lo < items.length)
    (ran : (resettle l x items 0 (items.length - (hi - lo)) lo).run m = (.ok (), m')) :
    Taken l s xs items lo hi m.heap m'.heap := by
  rw [resettle, times, pure_bind] at ran
  rcases times_insert regular has list filler (by omega : lo ≤ xs.length) with
    ⟨e, m₁, k, failed, -⟩ | ⟨m₁, grown, relisted⟩
  · rw [run_bind_error failed] at ran
    cases ran
  have grows := times_insert_sifted regular.sound has list filler grown
  obtain ⟨c, carries, contents⟩ := relisted.sound.carries_of_items relisted.items.storage
  obtain ⟨m₂, stored, after, still, sifted⟩ :=
    storeFrom_sifted lo items carries relisted.items.find? contents (by simp; omega)
  rw [run_bind_ok grown, stored] at ran
  cases ran
  rw [splice_grown x ordered inside (Nat.le_of_lt longer)] at after
  have whole := grows.trans sifted fun differ => absurd still differ
  refine taken_of_elements after.listItems (fun y member => ⟨fun outlasts => ?_, fun safe => ?_⟩) old fun fits => by omega
  · by_cases uncollected : m'.heap.collections = m.heap.collections
    · exact .inl uncollected
    right
    by_cases own : Own l s y
    · rcases own with rfl | rfl
      · exact list.1
      · exact has.rooted_storage list.1
    · obtain ⟨p, found, same⟩ := outlasts
      obtain ⟨q, before, tag⟩ := all y member
      rw [same (fun equal => own (.inl equal)) fun equal => own (.inr equal)] at before
      cases before
      exact whole.lost uncollected y ⟨p, found, tag⟩ own
  · refine outlasts_of_hasItems after (all y member) fun other => ?_
    rcases safe with uncollected | rooted
    · exact whole.idle uncollected y (all y member) other
    · have anchored : m.heap.Anchored y := ⟨rooted, all y member⟩
      exact (sifted.idle still y (relisted.held y anchored).2 other).trans (relisted.same y anchored other)

end Resettling

theorem resettle_taken (regular : m.heap.Regular) (has : m.heap.HasItems l s xs) (list : m.heap.Anchored l)
    (filler : m.heap.Anchored x) (elements : ∀ y ∈ items, m.heap.Element y) (ordered : lo ≤ hi) (inside : hi ≤ xs.length)
    (ran : (resettle l x items (hi - lo - items.length) (items.length - (hi - lo)) lo).run m = (.ok (), m')) :
    Taken l s xs items lo hi m.heap m'.heap := by
  have old : ∀ y ∈ xs, m.heap.Anchored y := by
    intro y member
    have found := regular.sound.found_listItems has.listItems y member
    exact ⟨found.2 list.1, found.1⟩
  have rooted : ∀ y ∈ xs, m.heap.Rooted y := fun y member => (old y member).1
  have all : ∀ y ∈ xs.take lo ++ (items ++ xs.drop hi), m.heap.Element y :=
    fun y member => (mem_splice member).elim (fun mine => (old y mine).2) (elements y)
  by_cases fewer : items.length ≤ hi - lo
  · rw [Nat.sub_eq_zero_of_le fewer] at ran
    exact resettle_takes_over regular has ordered inside rooted all fewer ran
  · rw [Nat.sub_eq_zero_of_le (by omega : hi - lo ≤ items.length)] at ran
    exact resettle_takes_in regular has list ordered inside rooted all filler (by omega) ran

theorem rooted_within {more : List Handle} {y : Handle} (known : ∀ x ∈ more, m.heap.Rooted x) :
    (within m more).heap.Rooted y ↔ m.heap.Rooted y := by
  constructor
  · intro rooted
    have lead : ∀ x ∈ (within m more).heap.collectionRoots [], m.heap.Rooted x := by
      intro x root
      simp only [collectionRoots, toList_within, List.mem_append, List.append_nil] at root
      rcases root with (root | added) | constant
      · exact .start (by simp [collectionRoots, root])
      · exact known x added
      · exact .start (List.mem_append_left _ (List.mem_append_right _ constant))
    exact reaches_trans (h := m.heap) lead rooted
  · intro rooted
    exact rooted.rerooted (toList_within m more ▸ List.subset_append_left _ _)

/-- What was taken in a construction that keeps nothing out of reach, seen from outside it. -/
theorem Taken.left {more : List Handle} (taken : Taken l s xs items lo hi (within m more).heap m'.heap)
    (known : ∀ x ∈ more, m.heap.Rooted x) (leave : RootSet → RootSet) :
    Taken l s xs items lo hi m.heap (m'.mapRoots leave).heap where
  contents := (listItems_rerooted m'.heap _ l).trans taken.contents
  elements y member := (taken.elements y member).trans (or_congr_right (rooted_within known))
  safe := by
    intro safe
    exact taken.safe (safe.imp_right fun new y member => (rooted_within known).2 (new y member))
  still := taken.still

/-- **Storing into a slice from a source that nothing keeps.** In every regular heap, for
a list that the roots lead to and a list or tuple that is merely live, if the operation
succeeds: the new elements are those that the source supplied, and each element of the
list is live and what it was just in case there was no collection or the roots led to it. -/
theorem storeSlice_takes {r : ListRecord} (regular : m.heap.Regular) (record : m.heap.listRecord l = .ok r)
    (contents : m.heap.listItems l = .ok xs) (rooted : m.heap.Rooted l) (supplied : Supplies m.heap source items)
    {start stop : Int} (ran : (storeSlice l start stop source).run m = (.ok (), m')) :
    Taken l r.storage xs items (Position.nearest start 0 xs.length)
      (Position.nearest stop (Position.nearest start 0 xs.length) xs.length) m.heap m'.heap := by
  have has := regular.sound.hasItems_of_listRecord record contents
  have read := sequenceItems_of_supplies supplied
  have elements : ∀ y ∈ items, m.heap.Element y := fun y member => (regular.sound.found_sequenceItems read y member).1
  obtain ⟨ordered, inside, refills⟩ := run_storeSlice regular has read rfl rfl
  rw [refills] at ran
  generalize Position.nearest stop (Position.nearest start 0 xs.length) xs.length = hi at ran ordered inside ⊢
  generalize Position.nearest start 0 xs.length = lo at ran ordered inside ⊢
  obtain ⟨more, leave, kept, whole⟩ := run_refill l source items (hi - lo - items.length) (items.length - (hi - lo)) lo m
  have own : ∀ x ∈ more, m.heap.Anchored x := by
    rcases kept with rfl | ⟨rfl, rfl⟩
    · simp
    · intro x member
      have found := regular.sound.found_sequenceItems read x member
      exact ⟨found.2 rooted, found.1⟩
  rcases settled : (resettle l m.heap.constants.none items (hi - lo - items.length) (items.length - (hi - lo)) lo).run
    (within m more) with ⟨result, m₁⟩
  rw [settled, ran] at whole
  cases whole
  have anchored : ∀ {y}, m.heap.Anchored y → (within m more).heap.Anchored y := fun anchored =>
    anchored.rerooted (toList_within m more ▸ List.subset_append_left _ _)
  have root : m.heap.constants.none ∈ m.heap.collectionRoots [] := by simp [collectionRoots, Constants.toList]
  have taken := resettle_taken (regular_within regular fun y member => (own y member).2)
    (hasItems_rerooted has regular.sound _) (anchored ⟨rooted, has.element⟩)
    (anchored ⟨.start root, regular.sound.roots _ root⟩) elements ordered inside settled
  exact taken.left (fun x member => (own x member).1) leave

/-- A heap for a full list, a pair, and a second segment for the list. -/
def meagre : HeapConfig := { arenaBytes := 104, maxChunkBytes := 64 }

/-- Make the list, and a pair that nothing keeps, of an integer that nothing keeps and one
of the constants; then make integers to no purpose. -/
def lending (count : Nat) : List Call :=
  ListCall.stocking ++ [.create (.int 7), .pushRoot ⟨7⟩, .create (.tuple [⟨7⟩, ⟨1⟩]), .popRoot] ++
    List.replicate count (.create (.int 8))

abbrev lent (count : Nat) : Machine :=
  Client.ended meagre (lending count)

abbrev eightElements : List Handle :=
  [⟨0⟩, ⟨1⟩, ⟨2⟩, ⟨3⟩, ⟨1⟩, ⟨2⟩, ⟨3⟩, ⟨0⟩]

/-- While there is room for the segment both elements last, and once there is not, the
constant still does. -/
theorem storeSlice_takes_lent :
    (lent 0).heap.Regular ∧ ((storeSlice ⟨5⟩ 8 8 ⟨8⟩).run (lent 0)).1 = .ok () ∧
      Outlasts ⟨5⟩ ⟨4⟩ (lent 0).heap ((storeSlice ⟨5⟩ 8 8 ⟨8⟩).run (lent 0)).2.heap ⟨7⟩ ∧
      (lent 1).heap.Regular ∧ ((storeSlice ⟨5⟩ 8 8 ⟨8⟩).run (lent 1)).1 = .ok () ∧
      Outlasts ⟨5⟩ ⟨4⟩ (lent 1).heap ((storeSlice ⟨5⟩ 8 8 ⟨8⟩).run (lent 1)).2.heap ⟨1⟩ := by
  have taken : ∀ count, (lent count).heap.Regular → (lent count).heap.listRecord ⟨5⟩ = .ok ⟨8, ⟨4⟩⟩ →
      (lent count).heap.listItems ⟨5⟩ = .ok eightElements → ⟨5⟩ ∈ (lent count).heap.collectionRoots [] →
      (lent count).heap.tupleItems ⟨8⟩ = .ok [⟨7⟩, ⟨1⟩] → ((storeSlice ⟨5⟩ 8 8 ⟨8⟩).run (lent count)).1 = .ok () →
      Taken ⟨5⟩ ⟨4⟩ eightElements [⟨7⟩, ⟨1⟩] 8 8 (lent count).heap ((storeSlice ⟨5⟩ 8 8 ⟨8⟩).run (lent count)).2.heap := by
    intro count regular record contents root pair done
    exact storeSlice_takes regular record contents (.start root) (.inr pair) (Prod.ext done rfl)
  have roomy : (lent 0).heap.Regular := Client.regular_ended (by decide +kernel)
  have packed : (lent 1).heap.Regular := Client.regular_ended (by decide +kernel)
  have done : ((storeSlice ⟨5⟩ 8 8 ⟨8⟩).run (lent 0)).1 = .ok () := by decide +kernel
  have done' : ((storeSlice ⟨5⟩ 8 8 ⟨8⟩).run (lent 1)).1 = .ok () := by decide +kernel
  refine ⟨roomy, done, ?_, packed, done', ?_⟩
  · have first := taken 0 roomy (by decide +kernel) (by decide +kernel) (by decide +kernel) (by decide +kernel) done
    exact first.safe (.inl (by decide +kernel)) ⟨7⟩ (by decide)
  · have second := taken 1 packed (by decide +kernel) (by decide +kernel) (by decide +kernel) (by decide +kernel) done'
    exact (second.elements ⟨1⟩ (by decide)).2 (.inr (.start (by decide +kernel)))

/-- The integer was live and is now an element of the list, but no longer live. -/
theorem storeSlice_stores_dead :
    (lent 1).heap.Regular ∧ (lent 1).heap.Rooted ⟨5⟩ ∧ Supplies (lent 1).heap ⟨8⟩ [⟨7⟩, ⟨1⟩] ∧
      (lent 1).heap.isLive ⟨7⟩ = true ∧ ((storeSlice ⟨5⟩ 8 8 ⟨8⟩).run (lent 1)).1 = .ok () ∧
      ((storeSlice ⟨5⟩ 8 8 ⟨8⟩).run (lent 1)).2.heap.listItems ⟨5⟩ = .ok (eightElements ++ [⟨7⟩, ⟨1⟩]) ∧
      ((storeSlice ⟨5⟩ 8 8 ⟨8⟩).run (lent 1)).2.heap.isLive ⟨7⟩ = false := by
  have regular : (lent 1).heap.Regular := Client.regular_ended (by decide +kernel)
  refine ⟨regular, .start ?_, .inr ?_, ?_, ?_, ?_, ?_⟩ <;> decide +kernel

end ListObject

end ChunkHeap

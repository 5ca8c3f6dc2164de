import ChunkHeap.Proofs.Containers.Sequences

/-!
# Storing into a slice

To store into a slice the list first loses elements one by one, or gets None one by
one, and then takes the new elements. While it shrinks nothing is collected; while it
grows a collection may take place before each step, and what was within reach stays so
(`Heap.Spares`, with exactly the payloads that objects had). So the elements that the
source supplied are there when they are stored, also when the source is the list itself
or one of the elements that are replaced.

`ListObject.Spliced` lists how the operation may end.
-/

namespace ChunkHeap
set_option autoImplicit false

open HeapM Heap

namespace Heap

variable {h g k : Heap} {l s x y : Handle} {c : Chain} {xs ys : List Handle} {pin loose : Option Handle}

/-- From `h` to `g` whatever lasts through an update that keeps `pin` has lasted, and
holds what it held unless it is the list `l` or its storage `s`. -/
structure Spares (pin : Option Handle) (l s : Handle) (h g : Heap) : Prop where
  held : ∀ y, h.Held pin y → g.Held pin y
  same : ∀ y, h.Held pin y → ¬ Own l s y → g.find? y = h.find? y

theorem Spares.refl (pin : Option Handle) (l s : Handle) (h : Heap) : Spares pin l s h h :=
  ⟨fun _ held => held, fun _ _ _ => rfl⟩

theorem Spares.trans (first : Spares pin l s h g) (second : Spares pin l s g k) : Spares pin l s h k where
  held y held := second.held y (first.held y held)
  same y held other := (second.same y (first.held y held) other).trans (first.same y held other)

theorem Cleared.spares (cleared : Cleared pin h g) (ok : h.Accounted) : Spares pin l s h g :=
  ⟨fun _ held => cleared.held ok held, fun _ held _ => cleared.find? ok held⟩

/-- An update of a storage writes to nothing else that lasts. -/
theorem Filled.find? {m' : Machine} (filled : Filled pin s c xs h (.ok (), m')) (sound : h.Sound loose) (held : h.Held pin y)
    (other : y ≠ s) : m'.heap.find? y = h.find? y := by
  cases filled with
  | filled cleared carries changed _ _ =>
    obtain ⟨p, found, tag⟩ := held.element
    have found' := (cleared.find? sound.accounted held).trans found
    rw [found, (changed.untouched found' other (carries.linked.ne_segment found' tag)).2]

theorem Filled.held {m' : Machine} (filled : Filled pin s c xs h (.ok (), m')) (sound : h.Sound loose)
    (grows : pin ≠ none → (c.map Prod.snd).flatten ⊆ xs) (held : h.Held pin y) : m'.heap.Held pin y := by
  cases filled with
  | filled cleared carries changed items _ =>
    subst items
    exact changed.held (cleared.orderly sound.orderly) carries grows (cleared.held sound.accounted held)

theorem Filled.spares {m' : Machine} (filled : Filled pin s c xs h (.ok (), m')) (sound : h.Sound loose)
    (grows : pin ≠ none → (c.map Prod.snd).flatten ⊆ xs) : Spares pin l s h m'.heap where
  held _ held := filled.held sound grows held
  same _ held other := filled.find? sound held fun same => other (.inr same)

/-- Writing the record of the list. -/
theorem Edited.spares {p q : Payload} (edited : Edited (· = l) h g) (found : h.find? l = some p) (written : g.find? l = some q)
    (tag : q.tag = p.tag) (wider : p.children ⊆ q.children) : Spares pin l s h g where
  held _ held := edited.held found written tag wider held
  same y _ other := edited.outside y fun same => other (.inl same)

/-- Since `h` the list `l`, kept in `s`, has come to have the elements `xs`, and
nothing else is to be seen of the change. -/
structure Relisted (pin : Option Handle) (l s : Handle) (xs : List Handle) (h g : Heap) : Prop extends
    Spares pin l s h g where
  sound : g.Sound none
  items : g.HasItems l s xs

theorem Spares.relisted (first : Spares pin l s h g) (second : Relisted pin l s xs g k) : Relisted pin l s xs h k :=
  { first.trans second.toSpares with sound := second.sound, items := second.items }

end Heap

namespace ListObject

variable {m m₁ : Machine} {l s x source : Handle} {xs ys items : List Handle} {c : Chain} {pin : Option Handle}
  {op : HeapM Unit} {index : Int} {i n lo hi : Nat}

/-! ### One step -/

/-- Updating the storage and telling the list its new length. -/
theorem recount_spares (resize : Nat → Nat) (sound : m.heap.Sound none) (has : m.heap.HasItems l s xs) (held : m.heap.Held pin l)
    (items : (c.map Prod.snd).flatten = xs) (ran : op.run m = (.ok (), m₁)) (filled : Filled pin s c ys m.heap (.ok (), m₁))
    (grows : pin ≠ none → xs ⊆ ys) :
    Spares pin l s m.heap
      ((do op; modifyRecord l fun r => { r with length := resize r.length }).run m).2.heap := by
  have found : m₁.heap.find? l = some (.list ⟨xs.length, s⟩) := (filled.find? sound held has.ne).trans has.find?
  obtain ⟨m₂, wrote, edited, written⟩ := modifyRecord_spec (fun r => { r with length := resize r.length }) found
  rw [run_bind_ok ran, wrote]
  exact (filled.spares sound (items ▸ grows)).trans (edited.spares found written rfl (List.Subset.refl _))

theorem insert_spares (sound : m.heap.Sound none) (has : m.heap.HasItems l s xs) (rooted : m.heap.Rooted l)
    (element : m.heap.Element x) (index : Int) : Spares (some x) l s m.heap ((insert l index x).run m).2.heap := by
  obtain ⟨c, carries, items⟩ := sound.carries_of_items has.storage
  have inside : Position.clamp index 0 xs.length ≤ xs.length := Position.clamp_le index (Nat.zero_le _)
  have filled := SegList.insert_filled sound.orderly carries (has.rooted_storage rooted) element (items ▸ inside)
  rw [items] at filled
  rw [insert, run_bind_ok (run_record has)]
  rcases ran : (SegList.insert s x (Position.clamp index 0 xs.length)).run m with ⟨e | ⟨⟩, m₁⟩
  · rw [ran] at filled
    rw [run_bind_error ran]
    cases filled with
    | failed cleared _ _ _ => exact cleared.spares sound.accounted
  · rw [ran] at filled
    have grows : xs ⊆ xs.insertIdx (Position.clamp index 0 xs.length) x := fun y member =>
      (List.perm_insertIdx x xs inside).mem_iff.2 (List.mem_cons_of_mem _ member)
    exact recount_spares (· + 1) sound has (Anchored.held ⟨rooted, has.element⟩) items ran filled fun _ => grows

theorem removeAt_relisted (sound : m.heap.Sound none) (has : m.heap.HasItems l s xs)
    (named : Position.element? index xs.length = some i) :
    ∃ m', (removeAt l index).run m = (.ok (), m') ∧ Relisted none l s (xs.eraseIdx i) m.heap m'.heap := by
  obtain ⟨m', ran, altered, after⟩ := removeAt_effect sound has named
  obtain ⟨c, carries, items⟩ := sound.carries_of_items has.storage
  obtain ⟨m₁, removed, filled⟩ := SegList.remove_filled sound.orderly carries (items ▸ Position.element?_lt named)
  have spares : Spares none l s m.heap ((removeAt l index).run m).2.heap := by
    rw [removeAt, run_bind_ok (run_record has), run_bind_ok (run_position_ok (r := ⟨xs.length, s⟩) named)]
    exact recount_spares (· - 1) sound has has.element items removed filled (by simp)
  rw [ran] at spares
  exact ⟨m', ran, { spares with sound := altered.sound, items := after }⟩

theorem set_relisted (sound : m.heap.Sound none) (has : m.heap.HasItems l s xs) (element : m.heap.Element x)
    (named : Position.element? index xs.length = some i) :
    ∃ m', (set l index x).run m = (.ok (), m') ∧ Relisted none l s (xs.set i x) m.heap m'.heap := by
  obtain ⟨m', ran, altered, after⟩ := set_effect sound has element named
  obtain ⟨c, carries, items⟩ := sound.carries_of_items has.storage
  obtain ⟨m₁, stored, filled⟩ := SegList.set_filled sound.orderly carries element (items ▸ Position.element?_lt named)
  have same : (set l index x).run m = (.ok (), m₁) := by
    rw [set, run_bind_ok (run_record has), run_bind_ok (run_position_ok (r := ⟨xs.length, s⟩) named), stored]
  rw [ran] at same
  cases same
  exact ⟨m', ran, { filled.spares sound (by simp) with sound := altered.sound, items := after }⟩

/-- An insertion finds no room and leaves the elements as they are, or adds one. -/
theorem insert_relisted (sound : m.heap.Sound none) (has : m.heap.HasItems l s xs) (rooted : m.heap.Rooted l)
    (element : m.heap.Element x) (index : Int) :
    (∃ e m', (insert l index x).run m = (.error e, m') ∧ e.kind = .memory ∧ Relisted (some x) l s xs m.heap m'.heap) ∨
      ∃ m', (insert l index x).run m = (.ok (), m') ∧
        Relisted (some x) l s (xs.insertIdx (Position.clamp index 0 xs.length) x) m.heap m'.heap := by
  have spares := insert_spares sound has rooted element index
  have effect := insert_effect sound has rooted element index
  generalize (insert l index x).run m = result at spares effect
  cases effect with
  | noRoom memory altered _ =>
    exact .inl ⟨_, _, rfl, memory, { spares with
      sound := altered.sound, items := has.altered altered rooted (fun never => never) fun never => never }⟩
  | done altered after => exact .inr ⟨_, rfl, { spares with sound := altered.sound, items := after }⟩

/-! ### The loops -/

/-- Removing `n` elements at a position. -/
theorem times_removeAt (sound : m.heap.Sound none) (has : m.heap.HasItems l s xs) (inside : lo + n ≤ xs.length) :
    ∃ m', (times n (removeAt l lo)).run m = (.ok (), m') ∧
      Relisted none l s (xs.take lo ++ xs.drop (lo + n)) m.heap m'.heap := by
  induction n generalizing m xs with
  | zero => exact ⟨m, rfl, { Spares.refl none l s m.heap with sound := sound, items := by simpa using has }⟩
  | succ n ih =>
    obtain ⟨m₁, removed, relisted⟩ := removeAt_relisted sound has (Position.element?_natCast (by omega : lo < xs.length))
    have shorter : lo + n ≤ (xs.eraseIdx lo).length := by
      rw [List.length_eraseIdx_of_lt (by omega)]
      omega
    obtain ⟨m', ran, rest⟩ := ih relisted.sound relisted.items shorter
    refine ⟨m', by rw [times, run_bind_ok removed, ran], relisted.toSpares.relisted ?_⟩
    have same : (xs.eraseIdx lo).take lo ++ (xs.eraseIdx lo).drop (lo + n) = xs.take lo ++ xs.drop (lo + (n + 1)) := by
      rw [List.eraseIdx_eq_take_drop_succ, List.take_left' (by rw [List.length_take]; omega), ← List.drop_drop,
        List.drop_left' (by rw [List.length_take]; omega), List.drop_drop]
      congr 2
      omega
    rwa [same] at rest

/-- Inserting an object `n` times at a position, as far as there is room. -/
theorem times_insert (regular : m.heap.Regular) (has : m.heap.HasItems l s xs) (list : m.heap.Anchored l)
    (filler : m.heap.Anchored x) (inside : lo ≤ xs.length) :
    (∃ e m' k, (times n (insert l lo x)).run m = (.error e, m') ∧ e.kind = .memory ∧ k < n ∧
        Relisted (some x) l s (xs.take lo ++ (List.replicate k x ++ xs.drop lo)) m.heap m'.heap) ∨
      ∃ m', (times n (insert l lo x)).run m = (.ok (), m') ∧
        Relisted (some x) l s (xs.take lo ++ (List.replicate n x ++ xs.drop lo)) m.heap m'.heap := by
  induction n generalizing m xs with
  | zero =>
    refine .inr ⟨m, rfl, { Spares.refl _ l s m.heap with sound := regular.sound, items := ?_ }⟩
    simpa using has
  | succ n ih =>
    have position : Position.clamp lo 0 xs.length = lo := by
      rw [Position.clamp_eq _ (regular.short has.storage), Position.fromFront, if_neg (by omega)]
      omega
    have added : xs.insertIdx lo x = xs.take lo ++ x :: xs.drop lo := by
      have split := insertIdx_append_right (l := xs.take lo) (m := xs.drop lo) (i := 0) (x := x)
      rwa [List.take_append_drop, List.length_take, Nat.min_eq_left inside] at split
    rcases insert_relisted regular.sound has list.1 filler.2 lo with ⟨e, m₁, failed, memory, relisted⟩ | ⟨m₁, done, relisted⟩
    · exact .inl ⟨e, m₁, 0, by rw [times, run_bind_error failed], memory, Nat.succ_pos n, by simpa using relisted⟩
    · have steps : Machine.Steps Machine.NoCalls false false m ((insert l lo x).run m).2 := takes_insert l lo x m
      rw [done] at steps
      rw [position, added] at relisted
      have short : lo ≤ (xs.take lo ++ x :: xs.drop lo).length := by simp; omega
      have front : (xs.take lo ++ x :: xs.drop lo).take lo = xs.take lo :=
        List.take_left' (by rw [List.length_take]; omega)
      have back : (xs.take lo ++ x :: xs.drop lo).drop lo = x :: xs.drop lo :=
        List.drop_left' (by rw [List.length_take]; omega)
      have more : ∀ k, List.replicate k x ++ x :: xs.drop lo = List.replicate (k + 1) x ++ xs.drop lo := by
        intro k
        rw [List.replicate_succ', List.append_assoc, List.singleton_append]
      have rest := ih (regular.steps steps relisted.sound) relisted.items (relisted.held l list) (relisted.held x filler) short
      simp only [front, back, more] at rest
      rcases rest with ⟨e, m', k, failed, memory, fewer, rest⟩ | ⟨m', ran, rest⟩
      · exact .inl ⟨e, m', k + 1, by rw [times, run_bind_ok done, failed], memory, Nat.succ_lt_succ fewer,
          relisted.toSpares.relisted rest⟩
      · exact .inr ⟨m', by rw [times, run_bind_ok done, ran], relisted.toSpares.relisted rest⟩

theorem mem_splice {y : Handle} (member : y ∈ xs.take lo ++ (items ++ xs.drop hi)) : y ∈ xs ∨ y ∈ items := by
  simp only [List.mem_append] at member
  rcases member with front | new | back
  · exact .inl (List.mem_of_mem_take front)
  · exact .inr new
  · exact .inl (List.mem_of_mem_drop back)

/-- Storing the first element and then the others puts them all in place. -/
theorem splice_set (items : List Handle) (inside : lo < xs.length) :
    (xs.set lo x).take (lo + 1) ++ (items ++ (xs.set lo x).drop (lo + 1 + items.length)) =
      xs.take lo ++ (x :: items ++ xs.drop (lo + (x :: items).length)) := by
  have front : (xs.set lo x).take (lo + 1) = xs.take lo ++ [x] := by
    rw [List.take_add_one, List.take_set_of_le (Nat.le_refl _), List.getElem?_set_self inside]
    rfl
  have back : (xs.set lo x).drop (lo + 1 + items.length) = xs.drop (lo + (x :: items).length) := by
    rw [List.drop_set_of_lt (by omega), List.length_cons]
    congr 1
    omega
  rw [front, back, List.append_assoc, List.singleton_append, ← List.cons_append]

/-- Elements stored over what is left of the slice. -/
theorem splice_shrunk (ordered : lo ≤ hi) (inside : hi ≤ xs.length) (fewer : items.length ≤ hi - lo) :
    (xs.take lo ++ xs.drop (lo + (hi - lo - items.length))).take lo ++
        (items ++ (xs.take lo ++ xs.drop (lo + (hi - lo - items.length))).drop (lo + items.length)) =
      xs.take lo ++ (items ++ xs.drop hi) := by
  have front : (xs.take lo ++ xs.drop (lo + (hi - lo - items.length))).take lo = xs.take lo :=
    List.take_left' (by rw [List.length_take]; omega)
  have back : (xs.take lo ++ xs.drop (lo + (hi - lo - items.length))).drop (lo + items.length) = xs.drop hi := by
    rw [← List.drop_drop, List.drop_left' (by rw [List.length_take]; omega), List.drop_drop]
    congr 1
    omega
  rw [front, back]

/-- Elements stored over the fillers and the rest of the slice. -/
theorem splice_grown (x : Handle) (ordered : lo ≤ hi) (inside : hi ≤ xs.length) (more : hi - lo ≤ items.length) :
    (xs.take lo ++ (List.replicate (items.length - (hi - lo)) x ++ xs.drop lo)).take lo ++
        (items ++ (xs.take lo ++ (List.replicate (items.length - (hi - lo)) x ++ xs.drop lo)).drop (lo + items.length)) =
      xs.take lo ++ (items ++ xs.drop hi) := by
  have front : (xs.take lo ++ (List.replicate (items.length - (hi - lo)) x ++ xs.drop lo)).take lo = xs.take lo :=
    List.take_left' (by rw [List.length_take]; omega)
  have back : (xs.take lo ++ (List.replicate (items.length - (hi - lo)) x ++ xs.drop lo)).drop (lo + items.length) =
      xs.drop hi := by
    rw [← List.drop_drop, List.drop_left' (by rw [List.length_take]; omega),
      show items.length = (items.length - (hi - lo)) + (hi - lo) by omega, ← List.drop_drop,
      List.drop_left' (by simp), List.drop_drop]
    congr 1
    omega
  rw [front, back]

/-- Storing elements at consecutive positions. -/
theorem storeFrom_relisted (lo : Nat) (sound : m.heap.Sound none) (has : m.heap.HasItems l s xs) (elements : ∀ y ∈ items, m.heap.Element y)
    (inside : lo + items.length ≤ xs.length) :
    ∃ m', (storeFrom l lo items).run m = (.ok (), m') ∧
      Relisted none l s (xs.take lo ++ (items ++ xs.drop (lo + items.length))) m.heap m'.heap := by
  induction items generalizing m xs lo with
  | nil => exact ⟨m, rfl, { Spares.refl none l s m.heap with sound := sound, items := by simpa using has }⟩
  | cons x items ih =>
    rw [List.length_cons] at inside
    obtain ⟨m₁, stored, relisted⟩ := set_relisted sound has (elements x List.mem_cons_self)
      (Position.element?_natCast (by omega : lo < xs.length))
    obtain ⟨m', ran, rest⟩ := ih (lo + 1) relisted.sound relisted.items
      (fun y member => relisted.held y (elements y (List.mem_cons_of_mem x member))) (by rw [List.length_set]; omega)
    refine ⟨m', by rw [storeFrom, run_bind_ok stored]; exact ran, relisted.toSpares.relisted ?_⟩
    rwa [splice_set items (by omega)] at rest

/-! ### The operation -/

/-- Bring the list to its new length, and store the elements. -/
def resettle (l filler : Handle) (items : List Handle) (surplus missing lo : Nat) : HeapM Unit := do
  times surplus (removeAt l lo)
  times missing (insert l lo filler)
  storeFrom l lo items

/-- The object is live in `g`, and unless it is the list `l` or its storage `s` it holds what it held in `h`. -/
def Outlasts (l s : Handle) (h g : Heap) (y : Handle) : Prop :=
  ∃ p, g.find? y = some p ∧ (y ≠ l → y ≠ s → h.find? y = some p)

/-- The list `l` has come to have the elements `xs`, and whatever was within reach outlasted that. -/
structure Rebuilt (l s : Handle) (xs : List Handle) (h g : Heap) : Prop where
  sound : g.Sound none
  items : g.HasItems l s xs
  lasting : ∀ y, h.Anchored y → Outlasts l s h g y

theorem outlasts {h g : Heap} {y : Handle} (element : g.Element y) (same : ¬ Own l s y → g.find? y = h.find? y) :
    Outlasts l s h g y := by
  obtain ⟨p, found, -⟩ := element
  refine ⟨p, found, fun list storage => ?_⟩
  rw [← same fun own => own.elim list storage, found]

theorem Relisted.rebuilt {h g : Heap} (relisted : Relisted pin l s xs h g) : Rebuilt l s xs h g where
  sound := relisted.sound
  items := relisted.items
  lasting y anchored := outlasts (relisted.held y anchored.held).element (relisted.same y anchored.held)

/-- When elements are removed, the rest of the operation can neither fail nor collect. -/
theorem resettle_shrinks (sound : m.heap.Sound none) (has : m.heap.HasItems l s xs) (elements : ∀ y ∈ items, m.heap.Element y)
    (ordered : lo ≤ hi) (inside : hi ≤ xs.length) (fewer : items.length ≤ hi - lo) :
    ∃ m', (resettle l x items (hi - lo - items.length) 0 lo).run m = (.ok (), m') ∧
      Rebuilt l s (xs.take lo ++ (items ++ xs.drop hi)) m.heap m'.heap := by
  obtain ⟨m₁, shrunk, relisted⟩ := times_removeAt sound has (by omega : lo + (hi - lo - items.length) ≤ xs.length)
  obtain ⟨m', stored, rest⟩ := storeFrom_relisted lo relisted.sound relisted.items
    (fun y member => relisted.held y (elements y member)) (by simp; omega)
  rw [splice_shrunk ordered inside fewer] at rest
  refine ⟨m', ?_, Relisted.rebuilt (relisted.toSpares.relisted rest)⟩
  rw [resettle, run_bind_ok shrunk, times, pure_bind, stored]

/-- When None is inserted, room may run out before the list has its new length. -/
theorem resettle_grows (regular : m.heap.Regular) (has : m.heap.HasItems l s xs) (list : m.heap.Anchored l)
    (filler : m.heap.Anchored x) (elements : ∀ y ∈ items, m.heap.Anchored y) (ordered : lo ≤ hi) (inside : hi ≤ xs.length)
    (more : hi - lo ≤ items.length) :
    (∃ e m' k, (resettle l x items 0 (items.length - (hi - lo)) lo).run m = (.error e, m') ∧ e.kind = .memory ∧
        k < items.length - (hi - lo) ∧ Rebuilt l s (xs.take lo ++ (List.replicate k x ++ xs.drop lo)) m.heap m'.heap) ∨
      ∃ m', (resettle l x items 0 (items.length - (hi - lo)) lo).run m = (.ok (), m') ∧
        Rebuilt l s (xs.take lo ++ (items ++ xs.drop hi)) m.heap m'.heap := by
  rw [resettle, times, pure_bind]
  rcases times_insert regular has list filler (by omega : lo ≤ xs.length) with
    ⟨e, m₁, k, failed, memory, fewer, relisted⟩ | ⟨m₁, grown, relisted⟩
  · exact .inl ⟨e, m₁, k, run_bind_error failed, memory, fewer, Relisted.rebuilt relisted⟩
  · obtain ⟨m', stored, rest⟩ := storeFrom_relisted lo relisted.sound relisted.items
      (fun y member => (relisted.held y (elements y member)).2) (by simp; omega)
    rw [splice_grown x ordered inside more] at rest
    refine .inr ⟨m', by rw [run_bind_ok grown, stored], rest.sound, rest.items, fun y anchored => ?_⟩
    have held := relisted.held y anchored
    exact outlasts (rest.held y held.2) fun other => (rest.same y held.2 other).trans (relisted.same y anchored other)

/-- A machine within a construction that keeps `more`. -/
def within (m : Machine) (more : List Handle) : Machine :=
  m.mapRoots fun r => { r.enter with inFlight := r.inFlight ++ more }

theorem toList_within (m : Machine) (more : List Handle) :
    (within m more).heap.roots.toList = m.heap.roots.toList ++ more := by
  simp [within, Machine.mapRoots, RootSet.toList, RootSet.enter]

theorem run_protectAll (items : List Handle) (m : Machine) :
    (forEach protect items).run m =
      (.ok (), m.mapRoots fun r => { r with inFlight := r.inFlight ++ items }) := by
  induction items generalizing m with
  | nil => simp [forEach, Machine.mapRoots]
  | cons y items ih =>
    have first : (protect y).run m = (.ok (), m.mapRoots fun r => r.protect y) := run_modifyRoots _ m
    rw [forEach, run_bind_ok first, ih]
    simp [Machine.mapRoots, RootSet.protect]

/-- The construction runs its steps while it keeps some of the elements, and then sets
the roots back. -/
theorem run_refill (l source : Handle) (items : List Handle) (surplus missing lo : Nat) (m : Machine) :
    ∃ more leave, (more = [] ∨ source = l ∧ more = items) ∧ (refill l source items surplus missing lo).run m =
      (((resettle l m.heap.constants.none items surplus missing lo).run (within m more)).1,
        ((resettle l m.heap.constants.none items surplus missing lo).run (within m more)).2.mapRoots leave) := by
  have kept : ∃ more, (more = [] ∨ source = l ∧ more = items) ∧
      (keepOwn l source items).run (m.mapRoots RootSet.enter) = (.ok (), within m more) := by
    rw [keepOwn]
    split
    · rename_i same
      exact ⟨items, .inr ⟨same, rfl⟩, run_protectAll items _⟩
    · exact ⟨[], .inl rfl, by simp [within, Machine.mapRoots, RootSet.enter]⟩
  obtain ⟨more, own, kept⟩ := kept
  refine ⟨more, fun r => r.leave m.heap.roots.inFlight.length, own, ?_⟩
  rw [refill, run_guarded, run_bind_ok kept, run_bind_ok (run_heap _)]
  rfl

/-- What a list or a tuple has to supply. -/
def Supplies (h : Heap) (source : Handle) (items : List Handle) : Prop :=
  h.listItems source = .ok items ∨ h.tupleItems source = .ok items

/-- How storing into the slice from `lo` to `hi` of the list `l`, which has the elements
`xs` in its storage `s`, may end. -/
inductive Spliced (l s : Handle) (xs : List Handle) (lo hi : Nat) (source : Handle) (m : Machine) :
    Except Error Unit × Machine → Prop
  /-- The source is no list and no tuple, and nothing has been done. -/
  | refused {e : Error} (kind : e.kind = .type)
      (neither : ∀ p, m.heap.find? source = some p → p.tag ≠ .list ∧ p.tag ≠ .tuple) :
      Spliced l s xs lo hi source m (.error e, m)
  /-- The slice has been replaced by what the source had to supply at first. -/
  | done {m' : Machine} {items : List Handle} (supplied : Supplies m.heap source items)
      (contents : m'.heap.listItems l = .ok (xs.take lo ++ (items ++ xs.drop hi)))
      (length : m'.heap.listLength l = .ok (xs.take lo ++ (items ++ xs.drop hi)).length)
      (elements : ∀ y ∈ xs.take lo ++ (items ++ xs.drop hi), Outlasts l s m.heap m'.heap y)
      (lasting : ∀ y, m.heap.Anchored y → Outlasts l s m.heap m'.heap y) :
      Spliced l s xs lo hi source m (.ok (), m')
  /-- The list was to become longer, and room ran out after `k` insertions of None. -/
  | noRoom {e : Error} {m' : Machine} {items : List Handle} {k : Nat} (memory : e.kind = .memory)
      (supplied : Supplies m.heap source items) (longer : hi - lo < items.length) (few : k < items.length - (hi - lo))
      (contents : m'.heap.listItems l = .ok (xs.take lo ++ (List.replicate k m.heap.constants.none ++ xs.drop lo)))
      (length : m'.heap.listLength l = .ok (xs.length + k))
      (elements : ∀ y ∈ xs, Outlasts l s m.heap m'.heap y)
      (lasting : ∀ y, m.heap.Anchored y → Outlasts l s m.heap m'.heap y) :
      Spliced l s xs lo hi source m (.error e, m')

end ListObject

namespace Heap

variable {h : Heap} {source : Handle} {items : List Handle} {e : Error}

theorem supplies_of_sequenceItems (read : h.sequenceItems source = .ok items) : ListObject.Supplies h source items := by
  cases record : h.payload source with
  | error e => simp [sequenceItems, record, bind, Except.bind] at read
  | ok p =>
    have found := payload_eq_ok_iff.1 record
    simp only [sequenceItems, record, bind, Except.bind] at read
    cases p with
    | tuple xs =>
      cases read
      exact .inr (tupleItems_eq_ok_iff.2 found)
    | list r =>
      refine .inl ?_
      rw [listItems, listRecord_eq_ok_iff.2 found]
      exact read
    | _ => cases read

theorem sequenceItems_of_supplies (supplied : ListObject.Supplies h source items) : h.sequenceItems source = .ok items := by
  rcases supplied with list | tuple
  · obtain ⟨r, record, read⟩ := except_bind_ok list
    rw [sequenceItems, payload_ok (listRecord_eq_ok_iff.1 record)]
    exact read
  · rw [sequenceItems, payload_ok (tupleItems_eq_ok_iff.1 tuple)]
    rfl

/-- The elements of a live object are refused if it is neither a list nor a tuple. -/
theorem Sound.sequenceItems_error {p : Payload} (sound : h.Sound none) (found : h.find? source = some p)
    (failed : h.sequenceItems source = .error e) : e.kind = .type ∧ p.tag ≠ .list ∧ p.tag ≠ .tuple := by
  rw [sequenceItems, payload_ok found] at failed
  cases p with
  | tuple xs => cases failed
  | list r =>
    obtain ⟨xs, has⟩ := sound.hasItems found
    have read : h.segListItems r.storage = .ok xs := (segListItems_of_items has.storage).2
    simp only [bind, Except.bind, read] at failed
    cases failed
  | _ =>
    cases failed
    exact ⟨rfl, by simp [Payload.tag], by simp [Payload.tag]⟩

end Heap

namespace ListObject

variable {m : Machine} {l s source : Handle} {xs items : List Handle} {lo hi : Nat}

theorem hasItems_rerooted {h : Heap} (has : h.HasItems l s xs) (sound : h.Sound none) (roots : RootSet) :
    { h with roots := roots }.HasItems l s xs :=
  ⟨(sound.content?_rerooted roots l).trans has.record, (sound.content?_rerooted roots s).trans has.storage⟩

theorem regular_within {more : List Handle} (regular : m.heap.Regular) (elements : ∀ y ∈ more, m.heap.Element y) :
    (within m more).heap.Regular := by
  refine ⟨regular.sound.rerooted fun y root => ?_, regular.balanced.congr rfl rfl rfl, regular.word⟩
  have root' : y ∈ (within m more).heap.roots.toList := root
  rw [toList_within, List.mem_append] at root'
  exact root'.elim (fun old => regular.sound.roots y (by simp [collectionRoots, old])) (elements y)

/-- What was built in a construction, seen from outside it. -/
theorem Rebuilt.left {more : List Handle} {m' : Machine} (rebuilt : Rebuilt l s xs (within m more).heap m'.heap)
    (leave : RootSet → RootSet) :
    (m'.mapRoots leave).heap.listItems l = .ok xs ∧ (m'.mapRoots leave).heap.listLength l = .ok xs.length ∧
      ∀ y, m.heap.Anchored y → Outlasts l s m.heap (m'.mapRoots leave).heap y := by
  have has := hasItems_rerooted rebuilt.items rebuilt.sound (leave m'.heap.roots)
  refine ⟨has.listItems, has.listLength, fun y anchored => rebuilt.lasting y (anchored.rerooted ?_)⟩
  exact toList_within m more ▸ List.subset_append_left _ _

theorem refill_spliced (regular : m.heap.Regular) (has : m.heap.HasItems l s xs) (list : m.heap.Anchored l)
    (elements : ∀ y ∈ items, m.heap.Anchored y) (supplied : Supplies m.heap source items) (ordered : lo ≤ hi)
    (inside : hi ≤ xs.length) :
    Spliced l s xs lo hi source m
      ((refill l source items (hi - lo - items.length) (items.length - (hi - lo)) lo).run m) := by
  obtain ⟨more, leave, kept, ran⟩ := run_refill l source items (hi - lo - items.length) (items.length - (hi - lo)) lo m
  have own : more ⊆ items := by
    rcases kept with rfl | ⟨-, rfl⟩ <;> simp
  have old : ∀ y ∈ xs, m.heap.Anchored y := by
    intro y member
    have found := regular.sound.found_listItems has.listItems y member
    exact ⟨found.2 list.1, found.1⟩
  have all : ∀ y ∈ xs.take lo ++ (items ++ xs.drop hi), m.heap.Anchored y :=
    fun y member => (mem_splice member).elim (old y) (elements y)
  have regular' := regular_within regular fun y member => (elements y (own member)).2
  have has' : (within m more).heap.HasItems l s xs := hasItems_rerooted has regular.sound _
  have anchored : ∀ {y}, m.heap.Anchored y → (within m more).heap.Anchored y := fun anchored =>
    anchored.rerooted (toList_within m more ▸ List.subset_append_left _ _)
  rw [ran]
  -- only a list that grows can run out of room
  by_cases fewer : items.length ≤ hi - lo
  · rw [Nat.sub_eq_zero_of_le fewer]
    obtain ⟨m', done, rebuilt⟩ := resettle_shrinks (x := m.heap.constants.none) regular'.sound has'
      (fun y member => (anchored (elements y member)).2) ordered inside fewer
    obtain ⟨contents, length, lasting⟩ := Rebuilt.left rebuilt leave
    rw [done]
    exact .done supplied contents length (fun y member => lasting y (all y member)) lasting
  · have longer : hi - lo < items.length := Nat.not_le.1 fewer
    have root : m.heap.constants.none ∈ m.heap.collectionRoots [] := by simp [collectionRoots, Constants.toList]
    rw [Nat.sub_eq_zero_of_le (Nat.le_of_lt longer)]
    rcases resettle_grows regular' has' (anchored list) (anchored ⟨.start root, regular.sound.roots _ root⟩)
      (fun y member => anchored (elements y member)) ordered inside (Nat.le_of_lt longer) with
      ⟨e, m', k, failed, memory, few, rebuilt⟩ | ⟨m', done, rebuilt⟩
    · obtain ⟨contents, length, lasting⟩ := Rebuilt.left rebuilt leave
      rw [failed]
      refine .noRoom memory supplied longer few contents (length.trans ?_) (fun y member => lasting y (old y member)) lasting
      congr 1
      simp
      omega
    · obtain ⟨contents, length, lasting⟩ := Rebuilt.left rebuilt leave
      rw [done]
      exact .done supplied contents length (fun y member => lasting y (all y member)) lasting

/-- Storing into a slice is refilling it, once the bounds have been turned into positions. -/
theorem run_storeSlice {start stop : Int} (regular : m.heap.Regular) (has : m.heap.HasItems l s xs)
    (read : m.heap.sequenceItems source = .ok items) (first : Position.nearest start 0 xs.length = lo)
    (last : Position.nearest stop lo xs.length = hi) :
    lo ≤ hi ∧ hi ≤ xs.length ∧ (storeSlice l start stop source).run m =
      (refill l source items (hi - lo - items.length) (items.length - (hi - lo)) lo).run m := by
  have short := regular.short has.storage
  rw [← Position.clamp_eq_nearest _ _ short] at first last
  have ordered : lo ≤ hi := last ▸ Position.le_clamp _ _ _
  have inside : hi ≤ xs.length := last ▸ Position.clamp_le _ (first ▸ Position.clamp_le _ (Nat.zero_le _))
  have surplus : xs.length - (xs.length - (hi - lo) + items.length) = hi - lo - items.length := by omega
  have missing : xs.length - (hi - lo) + items.length - xs.length = items.length - (hi - lo) := by omega
  refine ⟨ordered, inside, ?_⟩
  rw [storeSlice_eq, run_bind_ok (run_record has), run_bind_ok (run_inspect_ok read)]
  simp only [first, last, surplus, missing]

/-- **Storing into a slice is splicing.** -/
theorem storeSlice_splices {r : ListRecord} (regular : m.heap.Regular) (record : m.heap.listRecord l = .ok r)
    (contents : m.heap.listItems l = .ok xs) (rooted : m.heap.Rooted l) (supply : m.heap.Rooted source) (start stop : Int) :
    Spliced l r.storage xs (Position.nearest start 0 xs.length)
      (Position.nearest stop (Position.nearest start 0 xs.length) xs.length) source m
      ((storeSlice l start stop source).run m) := by
  have has := regular.sound.hasItems_of_listRecord record contents
  cases read : m.heap.sequenceItems source with
  | error e =>
    rw [storeSlice_eq, run_bind_ok (run_record has), run_bind_error (by rw [run_inspect, read])]
    obtain ⟨p, found⟩ := regular.sound.live (List.Subset.refl _) supply
    refine .refused (regular.sound.sequenceItems_error found read).1 fun q found' => ?_
    rw [found] at found'
    cases found'
    exact (regular.sound.sequenceItems_error found read).2
  | ok items =>
    have elements : ∀ y ∈ items, m.heap.Anchored y := by
      intro y member
      have found := regular.sound.found_sequenceItems read y member
      exact ⟨found.2 supply, found.1⟩
    obtain ⟨ordered, inside, refills⟩ := run_storeSlice regular has read rfl rfl
    rw [refills]
    exact refill_spliced regular has ⟨rooted, has.element⟩ elements (supplies_of_sequenceItems read) ordered inside

/-- A list of six elements in a heap without room for a second segment. -/
abbrev halfStocked : Machine :=
  Client.ended ListCall.snug (ListCall.stocking.take 8)

theorem halfStocked_regular : halfStocked.heap.Regular := by
  apply Client.regular_ended
  decide +kernel

abbrev sixElements : List Handle :=
  [⟨0⟩, ⟨1⟩, ⟨2⟩, ⟨3⟩, ⟨1⟩, ⟨2⟩]

/-- The list into itself, in the middle: the segment is full before all elements have a place. -/
theorem storeSlice_splices_halfStocked :
    halfStocked.heap.Regular ∧ halfStocked.heap.listItems ⟨5⟩ = .ok sixElements ∧
      halfStocked.heap.Rooted ⟨5⟩ ∧
      Spliced ⟨5⟩ ⟨4⟩ sixElements 3 3 ⟨5⟩ halfStocked ((storeSlice ⟨5⟩ 3 (-3) ⟨5⟩).run halfStocked) ∧
      ((storeSlice ⟨5⟩ 3 (-3) ⟨5⟩).run halfStocked).1 = .error .exhausted ∧
      ((storeSlice ⟨5⟩ 3 (-3) ⟨5⟩).run halfStocked).2.heap.listItems ⟨5⟩ =
        .ok [⟨0⟩, ⟨1⟩, ⟨2⟩, ⟨0⟩, ⟨0⟩, ⟨3⟩, ⟨1⟩, ⟨2⟩] := by
  have contents : halfStocked.heap.listItems ⟨5⟩ = .ok sixElements := by decide +kernel
  have record : halfStocked.heap.listRecord ⟨5⟩ = .ok ⟨6, ⟨4⟩⟩ := by decide +kernel
  have rooted : halfStocked.heap.Rooted ⟨5⟩ := .start (by decide +kernel)
  have lo : Position.nearest 3 0 sixElements.length = 3 := by decide
  have hi : Position.nearest (-3) 3 sixElements.length = 3 := by decide
  have spliced := storeSlice_splices halfStocked_regular record contents rooted rooted 3 (-3)
  rw [lo, hi] at spliced
  exact ⟨halfStocked_regular, contents, rooted, spliced, by decide +kernel, by decide +kernel⟩

end ListObject

end ChunkHeap

import ChunkHeap.Proofs.Comparison
import ChunkHeap.Proofs.Containers.Tables

/-!
# What operations on containers do

`HeapM.Keeps` says what an operation leaves alone. Here is what it brings about,
in terms of the contents that objects show. An update of a container is one of the
storage and one of the record, possibly after a collection; `Heap.Shows` composes
these, and `Heap.Altered` is what remains of it when the heap is sound again.

A scan of a storage is `search`, a function of what the storage shows.
-/

namespace ChunkHeap
set_option autoImplicit false

open HeapM

namespace Heap

variable {h g k : Heap} {x l s : Handle} {p q : Payload} {c c' : Chain} {xs ys : List Handle} {content : Content}
  {loose pin : Option Handle} {S T : Handle → Prop} {outcome : Except Error Unit × Machine}

/-! ### Composing changes -/

/-- From `h` to `g`, where a collection may have kept `pin`, only objects of `S` show
something else. -/
structure Shows (pin : Option Handle) (S : Handle → Prop) (h g : Heap) : Prop extends Upkeep h g where
  old : ∀ x content, ¬ S x → g.content? x = some content → h.content? x = some content
  kept : ∀ x, ¬ S x → h.Held pin x → g.content? x = h.content? x
  held : ∀ x, h.Held pin x → g.Held pin x

theorem Shows.trans (first : Shows pin S h g) (second : Shows pin S g k) : Shows pin S h k :=
  { first.toUpkeep.trans second.toUpkeep with
    old := fun x content outside shown => first.old x content outside (second.old x content outside shown)
    kept := fun x outside held => (second.kept x outside (first.held x held)).trans (first.kept x outside held)
    held := fun x held => second.held x (first.held x held) }

theorem Shows.mono (shows : Shows pin S h g) (wider : ∀ x, S x → T x) : Shows pin T h g :=
  { shows with
    old := fun x content outside => shows.old x content fun inside => outside (wider x inside)
    kept := fun x outside => shows.kept x fun inside => outside (wider x inside) }

/-- Which object is kept does not matter beyond that. -/
theorem Shows.repin {y : Handle} (shows : Shows (some x) S h g) : Shows (some y) S h g :=
  { shows with kept := shows.kept, held := shows.held }

/-- What the roots lead to and is not a segment, stays; a segment shows nothing. -/
theorem altered_of_kept (upkeep : Upkeep h g) (sound : h.Sound none) (sound' : g.Sound none)
    (old : ∀ x content, ¬ S x → g.content? x = some content → h.content? x = some content)
    (kept : ∀ x, ¬ S x → h.Anchored x → g.content? x = h.content? x) : Altered S h g :=
  { upkeep with
    sound := sound'
    old := old
    kept := by
      intro x outside rooted
      by_cases element : h.Element x
      · exact kept x outside ⟨rooted, element⟩
      · have hidden : h.content? x = none :=
          Option.eq_none_iff_forall_ne_some.2 fun content shown => element (sound.element_iff.2 ⟨content, shown⟩)
        refine (Option.eq_none_iff_forall_ne_some.2 fun content shown => ?_).trans hidden.symm
        rw [old x content outside shown] at hidden
        cases hidden }

theorem Shows.altered (shows : Shows pin S h g) (sound : h.Sound none) (sound' : g.Sound none) : Altered S h g :=
  altered_of_kept shows.toUpkeep sound sound' shows.old fun x outside anchored => shows.kept x outside anchored.held

/-- An update that may collect, and then one that does not. -/
theorem Shows.altered_then (first : Shows pin S h g) (second : Shows none S g k) (sound : h.Sound none)
    (sound' : k.Sound none) : Altered S h k := by
  refine altered_of_kept (first.toUpkeep.trans second.toUpkeep) sound sound' (fun x content outside shown => ?_)
    fun x outside anchored => ?_
  · exact first.old x content outside (second.old x content outside shown)
  · have element : g.Held none x := (first.held x anchored.held).element
    exact (second.kept x outside element).trans (first.kept x outside anchored.held)

/-- A change that is undone is none. -/
theorem Altered.undone (altered : Altered (· = x) h g) (same : g.content? x = h.content? x) :
    Altered (fun _ => False) h g := by
  refine { altered with old := fun y content _ shown => ?_, kept := fun y _ rooted => ?_ }
  · by_cases here : y = x
    · rwa [here, ← same, ← here]
    · exact altered.old y content here shown
  · by_cases here : y = x
    · rwa [here]
    · exact altered.kept y here rooted

/-- A change that takes place in a construction, seen from outside it. -/
theorem Altered.guarded {roots : RootSet} (altered : Altered S { h with roots := roots } g) (sound : h.Sound none)
    (wider : h.roots.toList ⊆ roots.toList) (sound' : { g with roots := h.roots }.Sound none) :
    Altered S h { g with roots := h.roots } where
  roots := rfl
  config := altered.config
  constants := altered.constants
  accounted ok := ⟨(altered.accounted ⟨ok.arena, ok.bytes⟩).arena, (altered.accounted ⟨ok.arena, ok.bytes⟩).bytes⟩
  headed := altered.headed
  sound := sound'
  old x content outside shown := by
    rw [altered.sound.content?_rerooted] at shown
    rw [← sound.content?_rerooted roots]
    exact altered.old x content outside shown
  kept x outside rooted := by
    rw [altered.sound.content?_rerooted, altered.kept x outside (rooted.rerooted wider), sound.content?_rerooted]

theorem Cleared.shows (cleared : Cleared pin h g) (sound : h.Sound loose) : Shows pin S h g := by
  have ok := sound.accounted
  refine { cleared.upkeep ok with old := ?_, kept := ?_, held := fun x held => cleared.held ok held }
  · rcases cleared with rfl | ⟨y, -, -, swept⟩
    · exact fun x content _ shown => shown
    · exact fun x content _ shown => swept.of_content? sound.toShaped shown
  · rcases cleared with rfl | ⟨y, pinned, -, swept⟩
    · exact fun x _ _ => rfl
    · cases pinned
      exact fun x _ held => swept.content? sound.toShaped (held.1.collected _)

/-- A view that is updated at one object of `S` shows nothing new elsewhere. -/
theorem shows_of_update (upkeep : Upkeep h g) (updated : g.content? = Function.update h.content? x (some content))
    (inside : S x) (held : ∀ y, h.Held pin y → g.Held pin y) : Shows pin S h g := by
  have outside : ∀ y, ¬ S y → g.content? y = h.content? y := by
    intro y outside
    rw [updated, Function.update_of_ne]
    rintro rfl
    exact outside inside
  exact { upkeep with
    old := fun y _ other shown => (outside y other).symm.trans shown
    kept := fun y other _ => outside y other
    held := held }

/-- An update of the storage `s`, as far as contents go. -/
theorem Filled.shows {m' : Machine} (filled : Filled pin s c xs h (.ok (), m')) (sound : h.Sound loose)
    (grows : pin ≠ none → (c.map Prod.snd).flatten ⊆ xs) :
    Shows pin (· = s) h m'.heap ∧ m'.heap.content? s = some (.items xs) ∧ m'.heap.Shaped := by
  cases filled with
  | @filled g _ c' cleared carries changed items elements =>
    have sound' := cleared.sound sound
    subst items
    have updated := changed.content? sound'.toShaped carries
    refine ⟨(cleared.shows sound).trans (shows_of_update changed.toUpkeep updated rfl fun y held => ?_), ?_, ?_⟩
    · exact changed.held sound'.orderly carries grows held
    · rw [updated, Function.update_self]
    · exact sound'.toShaped.rechained carries changed elements

/-! ### How an update ends -/

/-- How an update ends that may need a chunk: without room, for which `full` says
why, and with nothing to show for it; or with the objects of `S` changed as `post`
says. -/
inductive Effect (S : Handle → Prop) (h : Heap) (full post : Heap → Prop) : Except Error Unit × Machine → Prop
  | noRoom {e : Error} {m' : Machine} (memory : e.kind = .memory) (altered : Altered (fun _ => False) h m'.heap)
      (refused : full m'.heap) : Effect S h full post (.error e, m')
  | done {m' : Machine} (altered : Altered S h m'.heap) (holds : post m'.heap) : Effect S h full post (.ok (), m')

/-- A list of `n` elements needs another segment, and there is no room for one. -/
def Brimming (n : Nat) (h : Heap) : Prop :=
  n % segmentCapacity = 0 ∧ ¬ h.Admits (Payload.segment {}).chunkBytes

end Heap

/-! ### Access by position -/

open Heap

theorem SegList.run_get {m : Machine} {s : Handle} {xs : List Handle} {loose : Option Handle}
    (sound : m.heap.Sound loose) (shown : m.heap.content? s = some (.items xs)) (i : Nat) :
    ∃ m', (SegList.get s i).run m = (xs[i]?.elim (.error .segListRange) .ok, m') ∧ Glanced m.heap m'.heap := by
  obtain ⟨c, ⟨r, found, chained⟩, rfl⟩ := sound.carries_of_items shown
  by_cases inside : i < r.length
  · obtain ⟨x, m', here, read, changed⟩ := SegList.get_spec found chained inside
    exact ⟨m', by rw [read, here]; rfl, changed.glanced ⟨r, found, chained⟩⟩
  · refine ⟨m, ?_, Glanced.refl _⟩
    rw [SegList.get, run_bind_error (SegList.run_locate_range found (by omega)),
      List.getElem?_eq_none (by rw [← chained.length]; omega)]
    rfl

/-! ### Scans -/

/-- The position of the first element that passes a test, unless the test fails
before. -/
def search (test : Handle → Except Error Bool) : List Handle → Except Error (Option Nat)
  | [] => .ok none
  | x :: xs => do
    if ← test x then
      return some 0
    else
      return (← search test xs).map (· + 1)

section Search

variable {test test' : Handle → Except Error Bool} {xs : List Handle} {i : Nat} {e : Error}

theorem search_cons_true {x : Handle} (passed : test x = .ok true) : search test (x :: xs) = .ok (some 0) := by
  rw [search, passed]
  rfl

theorem search_cons_false {x : Handle} (failed : test x = .ok false) :
    search test (x :: xs) = (search test xs).map fun found => found.map (· + 1) := by
  rw [search, failed]
  rfl

theorem search_cons_error {x : Handle} (failed : test x = .error e) : search test (x :: xs) = .error e := by
  rw [search, failed]
  rfl

theorem search_congr (same : ∀ x ∈ xs, test x = test' x) : search test xs = search test' xs := by
  induction xs with
  | nil => rfl
  | cons x xs ih =>
    rw [search, search, same x List.mem_cons_self, ih fun y member => same y (List.mem_cons_of_mem x member)]

/-- The search ends without result when every element fails the test. -/
theorem search_eq_none_iff : search test xs = .ok none ↔ ∀ x ∈ xs, test x = .ok false := by
  induction xs with
  | nil => simp [search]
  | cons x xs ih =>
    cases first : test x with
    | error e => simp [search_cons_error first, first]
    | ok passed =>
      cases passed with
      | true => simp [search_cons_true first, first]
      | false =>
        rw [search_cons_false first, List.forall_mem_cons, ← ih]
        cases search test xs with
        | error e => simp [Except.map]
        | ok found => cases found <;> simp [Except.map, first]

/-- The position found is that of the first element to pass. -/
theorem search_eq_some_iff :
    search test xs = .ok (some i) ↔ (∃ x, xs[i]? = some x ∧ test x = .ok true) ∧ ∀ x ∈ xs.take i, test x = .ok false := by
  induction xs generalizing i with
  | nil => simp [search]
  | cons x xs ih =>
    cases first : test x with
    | error e =>
      cases i <;> simp [search_cons_error first, first]
    | ok passed =>
      cases passed with
      | true => cases i <;> simp [search_cons_true first, first]
      | false =>
        rw [search_cons_false first]
        cases i with
        | zero =>
          cases search test xs with
          | error e => simp [Except.map, first]
          | ok found => cases found <;> simp [Except.map, first]
        | succ i =>
          rw [List.take_succ_cons, List.forall_mem_cons, List.getElem?_cons_succ]
          have rest := ih (i := i)
          cases found : search test xs with
          | error e =>
            rw [found] at rest
            simpa [Except.map, first] using rest
          | ok position =>
            rw [found] at rest
            cases position <;> simpa [Except.map, first] using rest

/-- The error of a search is that of the first test that does not fail plainly. -/
theorem search_eq_error_iff :
    search test xs = .error e ↔ ∃ i x, xs[i]? = some x ∧ test x = .error e ∧ ∀ y ∈ xs.take i, test y = .ok false := by
  induction xs with
  | nil => simp [search]
  | cons x xs ih =>
    constructor
    · intro failed
      cases first : test x with
      | error e' =>
        rw [search_cons_error first] at failed
        cases failed
        exact ⟨0, x, rfl, first, by simp⟩
      | ok passed =>
        cases passed with
        | true =>
          rw [search_cons_true first] at failed
          cases failed
        | false =>
          rw [search_cons_false first] at failed
          cases rest : search test xs with
          | ok found =>
            rw [rest] at failed
            cases failed
          | error e' =>
            rw [rest] at failed
            cases failed
            obtain ⟨i, y, here, wrong, before⟩ := ih.1 rest
            refine ⟨i + 1, y, here, wrong, ?_⟩
            rw [List.take_succ_cons, List.forall_mem_cons]
            exact ⟨first, before⟩
    · rintro ⟨i, y, here, wrong, before⟩
      cases i with
      | zero =>
        cases here
        exact search_cons_error wrong
      | succ i =>
        rw [List.take_succ_cons, List.forall_mem_cons] at before
        rw [search_cons_false before.1, ih.2 ⟨i, y, here, wrong, before.2⟩]
        rfl

/-- A search goes on where it has found nothing. -/
theorem search_append (ys : List Handle) :
    search test (xs ++ ys) =
      match search test xs with
      | .ok none => (search test ys).map fun found => found.map (· + xs.length)
      | result => result := by
  induction xs with
  | nil =>
    cases rest : search test ys with
    | error e => simp [search, rest, Except.map]
    | ok found => cases found <;> simp [search, rest, Except.map]
  | cons x xs ih =>
    rw [List.cons_append]
    cases first : test x with
    | error e => simp [search_cons_error first]
    | ok passed =>
      cases passed with
      | true => simp [search_cons_true first]
      | false =>
        rw [search_cons_false first, search_cons_false first, ih]
        cases search test xs with
        | error e => rfl
        | ok found =>
          cases found with
          | some i => rfl
          | none =>
            cases search test ys with
            | error e => rfl
            | ok later => cases later <;> simp [Except.map, Nat.add_assoc]

theorem lt_length_of_search (found : search test xs = .ok (some i)) : i < xs.length := by
  obtain ⟨⟨x, here, -⟩, -⟩ := search_eq_some_iff.1 found
  exact (List.getElem?_eq_some_iff.1 here).1

end Search

namespace Heap

variable {h g : Heap} {a b x : Handle} {p : Payload}

/-- Comparison as a test: whether `x` and `value` are the same. -/
def sameAs (h : Heap) (value x : Handle) : Except Error Bool :=
  (h.compare x value).map (· = .same)

end Heap

theorem Heap.Glanced.sameAs {h g : Heap} {value x : Handle} (glanced : Glanced h g) (sound : h.Sound none)
    (value_live : ∃ p, h.find? value = some p) (element : h.Element x) : g.sameAs value x = h.sameAs value x := by
  rw [Heap.sameAs, Heap.sameAs, glanced.compare sound element value_live]

/-- Scanning a storage is searching what it shows, if the test looks past cursors. -/
theorem DictObject.run_findFrom {m : Machine} {keys : Handle} {xs : List Handle} {test : Heap → Handle → Except Error Bool}
    {loose : Option Handle} (sound : m.heap.Sound loose) (shown : m.heap.content? keys = some (.items xs))
    (steady : ∀ g, Glanced m.heap g → ∀ x ∈ xs, test g x = test m.heap x) {count i : Nat} (all : i + count = xs.length) :
    ∃ m', (findFrom keys test count i).run m =
        ((search (test m.heap) (xs.drop i)).map (fun found => found.map (· + i)), m') ∧ Glanced m.heap m'.heap := by
  induction count generalizing m i with
  | zero =>
    rw [List.drop_eq_nil_of_le (by omega)]
    exact ⟨m, rfl, Glanced.refl _⟩
  | succ count ih =>
    have inside : i < xs.length := by omega
    obtain ⟨m₁, got, glanced⟩ := SegList.run_get sound shown i
    rw [List.getElem?_eq_getElem inside, Option.elim_some] at got
    rw [findFrom, run_bind_ok got, List.drop_eq_getElem_cons inside, run_bind, run_inspect,
      steady _ glanced _ (List.getElem_mem inside)]
    cases tested : test m.heap xs[i] with
    | error e => exact ⟨m₁, by rw [search_cons_error tested]; rfl, glanced⟩
    | ok passed =>
      cases passed with
      | true => exact ⟨m₁, by rw [search_cons_true tested]; simp [Except.map], glanced⟩
      | false =>
        obtain ⟨m', ran, glanced'⟩ := ih (glanced.sound loose sound) ((glanced.content? sound keys).trans shown)
          (fun g later x member => (steady g (glanced.trans later) x member).trans (steady _ glanced x member).symm)
          (i := i + 1) (by omega)
        refine ⟨m', ?_, glanced.trans glanced'⟩
        rw [search_cons_false tested, search_congr fun x member =>
          (steady _ glanced x (List.mem_of_mem_drop member)).symm]
        refine ran.trans ?_
        cases search (test m₁.heap) (xs.drop (i + 1)) with
        | error e => rfl
        | ok found => cases found <;> simp [Except.map]; omega

/-! ### Lists -/

namespace Heap

variable {h g : Heap} {l s x : Handle} {xs : List Handle} {r : ListRecord} {S : Handle → Prop}

/-- The list `l` keeps the elements `xs` in the storage `s`. -/
structure HasItems (h : Heap) (l s : Handle) (xs : List Handle) : Prop where
  record : h.content? l = some (.record (.list ⟨xs.length, s⟩))
  storage : h.content? s = some (.items xs)

/-- What an update of a list may write to. -/
def Own (l s x : Handle) : Prop :=
  x = l ∨ x = s

namespace HasItems

theorem find? (has : h.HasItems l s xs) : h.find? l = some (.list ⟨xs.length, s⟩) :=
  (find?_of_record has.record).1

theorem element (has : h.HasItems l s xs) : h.Element l :=
  ⟨_, has.find?, by simp [Payload.tag]⟩

theorem ne (has : h.HasItems l s xs) : l ≠ s := by
  rintro rfl
  have record := has.record
  rw [has.storage] at record
  cases record

theorem rooted_storage (has : h.HasItems l s xs) (rooted : h.Rooted l) : h.Rooted s :=
  reaches_edge rooted has.find? (List.mem_singleton_self s)

theorem listLength (has : h.HasItems l s xs) : h.listLength l = .ok xs.length := by
  rw [Heap.listLength, listRecord_eq_ok_iff.2 has.find?]
  rfl

theorem listItems (has : h.HasItems l s xs) : h.listItems l = .ok xs := by
  rw [Heap.listItems, listRecord_eq_ok_iff.2 has.find?]
  exact (segListItems_of_items has.storage).2

/-- A list lasts if neither it nor its storage is changed. -/
theorem altered (has : h.HasItems l s xs) (altered : Altered S h g) (rooted : h.Rooted l) (list : ¬ S l) (storage : ¬ S s) :
    g.HasItems l s xs :=
  ⟨(altered.kept l list rooted).trans has.record, (altered.kept s storage (has.rooted_storage rooted)).trans has.storage⟩

/-- A list lasts through a change to another one. -/
theorem other {t u : Handle} {ys : List Handle} (has : h.HasItems l s xs) (target : h.HasItems t u ys)
    (altered : Altered (Own t u) h g) (sound : h.Sound none) (rooted : h.Rooted l) (different : t ≠ l) : g.HasItems l s xs := by
  refine has.altered altered rooted ?_ ?_
  · rintro (rfl | rfl)
    · exact different rfl
    · have storage := target.storage
      rw [has.record] at storage
      cases storage
  · rintro (rfl | rfl)
    · have storage := has.storage
      rw [target.record] at storage
      cases storage
    · exact different (sound.owner _ _ _ _ s target.find? has.find? List.mem_cons_self List.mem_cons_self)

end HasItems

theorem HasItems.glanced (has : h.HasItems l s xs) (glanced : Glanced h g) (sound : h.Sound none) : g.HasItems l s xs :=
  ⟨(glanced.content? sound l).trans has.record, (glanced.content? sound s).trans has.storage⟩

theorem Sound.hasItems (sound : h.Sound none) (found : h.find? l = some (.list r)) : ∃ xs, h.HasItems l r.storage xs := by
  obtain ⟨xs, shown, length⟩ := sound.list_items found
  refine ⟨xs, content?_of_record (found.trans ?_) (by simp [Payload.tag]) (by simp [Payload.tag]), shown⟩
  rw [length]

theorem Sound.hasItems_of_listRecord {r : ListRecord} (sound : h.Sound none) (record : h.listRecord l = .ok r)
    (read : h.listItems l = .ok xs) : h.HasItems l r.storage xs := by
  obtain ⟨ys, has⟩ := sound.hasItems (listRecord_eq_ok_iff.1 record)
  rw [has.listItems] at read
  cases read
  exact has

theorem Sound.hasItems_of_listItems (sound : h.Sound none) (read : h.listItems l = .ok xs) : ∃ s, h.HasItems l s xs := by
  cases record : h.listRecord l with
  | error e =>
    rw [Heap.listItems, record] at read
    cases read
  | ok r =>
    exact ⟨r.storage, sound.hasItems_of_listRecord record read⟩

end Heap

namespace ListObject

variable {m m₁ : Machine} {l s x : Handle} {xs ys : List Handle} {c : Chain} {pin : Option Handle}
  {op : HeapM Unit} {index : Int} {i : Nat}

theorem run_record (has : m.heap.HasItems l s xs) : (inspect fun h => h.listRecord l).run m = (.ok ⟨xs.length, s⟩, m) :=
  run_inspect_ok (listRecord_eq_ok_iff.2 has.find?)

/-- When the storage has been updated, the list is told its new length. -/
theorem run_recount (resize : Nat → Nat) (sound : m.heap.Sound none) (has : m.heap.HasItems l s xs) (held : m.heap.Held pin l)
    (items : (c.map Prod.snd).flatten = xs) (ran : op.run m = (.ok (), m₁)) (filled : Filled pin s c ys m.heap (.ok (), m₁))
    (grows : pin ≠ none → xs ⊆ ys) (length : ys.length = resize xs.length) :
    ∃ m₂, (do op; modifyRecord l fun r => { r with length := resize r.length }).run m = (.ok (), m₂) ∧
      Shows pin (Own l s) m.heap m₂.heap ∧ m₂.heap.HasItems l s ys := by
  obtain ⟨shows, stored, shaped⟩ := filled.shows sound (items ▸ grows)
  have found := (find?_of_record ((shows.kept l has.ne held).trans has.record)).1
  obtain ⟨m₂, wrote, edited, written⟩ := modifyRecord_spec (fun r => { r with length := resize r.length }) found
  have updated := edited.content? shaped found written rfl (by simp [Payload.tag]) (by simp [Payload.tag])
  refine ⟨m₂, by rw [run_bind_ok ran, wrote], ?_, ?_, ?_⟩
  · refine (shows.mono fun x same => .inr same).trans (shows_of_update edited.toUpkeep updated (.inl rfl) fun y lasts => ?_)
    exact edited.held found written rfl (List.Subset.refl _) lasts
  · rw [updated, Function.update_self, length]
  · rw [updated, Function.update_of_ne has.ne.symm, stored]

/-- An update that adds an element. -/
theorem grow_effect (sound : m.heap.Sound none) (has : m.heap.HasItems l s xs) (rooted : m.heap.Rooted l)
    (items : (c.map Prod.snd).flatten = xs) (filled : Filled (some x) s c ys m.heap (op.run m)) (grows : xs ⊆ ys)
    (length : ys.length = xs.length + 1)
    (kept : Kept false (fun _ => True) m.heap
      ((do op; modifyRecord l fun r => { r with length := r.length + 1 }).run m).2.heap) :
    Effect (Own l s) m.heap (Brimming xs.length) (fun g => g.HasItems l s ys)
      ((do op; modifyRecord l fun r => { r with length := r.length + 1 }).run m) := by
  rcases ran : op.run m with ⟨e | ⟨⟩, m₁⟩
  · rw [ran] at filled
    rw [run_bind_error ran] at kept ⊢
    cases filled with
    | failed cleared memory full refused =>
      exact .noRoom memory ((cleared.shows sound).altered sound kept.sound) ⟨items ▸ full, refused⟩
  · rw [ran] at filled
    obtain ⟨m₂, wrote, shows, holds⟩ :=
      run_recount (· + 1) sound has (Anchored.held ⟨rooted, has.element⟩) items ran filled (fun _ => grows) length
    rw [wrote] at kept ⊢
    exact .done (shows.altered sound kept.sound) holds

/-- An update that takes elements away, and cannot fail. -/
theorem shrink_effect (resize : Nat → Nat) (sound : m.heap.Sound none) (has : m.heap.HasItems l s xs) (items : (c.map Prod.snd).flatten = xs)
    (ran : op.run m = (.ok (), m₁)) (filled : Filled none s c ys m.heap (.ok (), m₁)) (length : ys.length = resize xs.length)
    (kept : Kept false (fun _ => True) m.heap
      ((do op; modifyRecord l fun r => { r with length := resize r.length }).run m).2.heap) :
    ∃ m', (do op; modifyRecord l fun r => { r with length := resize r.length }).run m = (.ok (), m') ∧
      Altered (Own l s) m.heap m'.heap ∧ m'.heap.HasItems l s ys := by
  have held : m.heap.Held none l := has.element
  obtain ⟨m₂, wrote, shows, holds⟩ := run_recount resize sound has held items ran filled (by simp) length
  rw [wrote] at kept
  exact ⟨m₂, wrote, shows.altered sound kept.sound, holds⟩

theorem append_effect (sound : m.heap.Sound none) (has : m.heap.HasItems l s xs) (rooted : m.heap.Rooted l)
    (element : m.heap.Element x) :
    Effect (Own l s) m.heap (Brimming xs.length) (fun g => g.HasItems l s (xs ++ [x])) ((append l x).run m) := by
  obtain ⟨c, carries, items⟩ := sound.carries_of_items has.storage
  have kept : Kept false (fun _ => True) m.heap ((append l x).run m).2.heap :=
    (keeps_append (fun _ => False) l x m sound ⟨element, ⟨rooted, has.element⟩, fun _ none => none.elim⟩).1
  rw [append, run_bind_ok (run_record has)] at kept ⊢
  have filled := SegList.append_filled sound.orderly carries (has.rooted_storage rooted) element
  rw [items] at filled
  exact grow_effect sound has rooted items filled (List.subset_append_left _ _) (by simp) kept

theorem insert_effect (sound : m.heap.Sound none) (has : m.heap.HasItems l s xs) (rooted : m.heap.Rooted l)
    (element : m.heap.Element x) (index : Int) :
    Effect (Own l s) m.heap (Brimming xs.length)
      (fun g => g.HasItems l s (xs.insertIdx (Position.clamp index 0 xs.length) x))
      ((insert l index x).run m) := by
  obtain ⟨c, carries, items⟩ := sound.carries_of_items has.storage
  have kept : Kept false (fun _ => True) m.heap ((insert l index x).run m).2.heap :=
    (keeps_insert (fun _ => False) l index x m sound ⟨element, ⟨rooted, has.element⟩, fun _ none => none.elim⟩).1
  rw [insert, run_bind_ok (run_record has)] at kept ⊢
  have inside : Position.clamp index 0 xs.length ≤ xs.length := Position.clamp_le index (Nat.zero_le _)
  have filled := SegList.insert_filled sound.orderly carries (has.rooted_storage rooted) element (items ▸ inside)
  rw [items] at filled
  have perm := List.perm_insertIdx x xs inside
  refine grow_effect sound has rooted items filled (fun y member => ?_) perm.length_eq kept
  exact perm.mem_iff.2 (List.mem_cons_of_mem _ member)

theorem run_position_ok {r : ListRecord} (named : Position.element? index r.length = some i) :
    (position r index).run m = (.ok i, m) := by
  unfold position
  rw [named]
  rfl

theorem run_position_error {r : ListRecord} (absent : Position.element? index r.length = none) :
    (position r index).run m = (.error .listRange, m) := by
  unfold position
  rw [absent]
  rfl

theorem run_get (sound : m.heap.Sound none) (has : m.heap.HasItems l s xs) (index : Int) :
    ∃ m', (get l index).run m = (((Position.element? index xs.length).bind (xs[·]?)).elim (.error .listRange) .ok, m') ∧
      Glanced m.heap m'.heap ∧ (Position.element? index xs.length = none → m' = m) := by
  rw [get, run_bind_ok (run_record has)]
  cases named : Position.element? index xs.length with
  | none =>
    rw [run_bind_error (run_position_error (r := ⟨xs.length, s⟩) named)]
    exact ⟨m, rfl, Glanced.refl _, fun _ => rfl⟩
  | some i =>
    rw [run_bind_ok (run_position_ok (r := ⟨xs.length, s⟩) named)]
    obtain ⟨m', got, glanced⟩ := SegList.run_get sound has.storage i
    refine ⟨m', got.trans ?_, glanced, fun absent => by cases absent⟩
    rw [Option.bind_some, List.getElem?_eq_getElem (Position.element?_lt named)]
    rfl

theorem set_effect (sound : m.heap.Sound none) (has : m.heap.HasItems l s xs) (element : m.heap.Element x)
    (named : Position.element? index xs.length = some i) :
    ∃ m', (set l index x).run m = (.ok (), m') ∧ Altered (Own l s) m.heap m'.heap ∧ m'.heap.HasItems l s (xs.set i x) := by
  obtain ⟨c, carries, items⟩ := sound.carries_of_items has.storage
  have kept : Kept false (fun _ => True) m.heap ((set l index x).run m).2.heap :=
    (keeps_set (· = x) l index rfl m sound fun y same => same ▸ element).1
  rw [set, run_bind_ok (run_record has), run_bind_ok (run_position_ok (r := ⟨xs.length, s⟩) named)] at kept ⊢
  obtain ⟨m', ran, filled⟩ := SegList.set_filled sound.orderly carries element (items ▸ Position.element?_lt named)
  obtain ⟨shows, stored, -⟩ := filled.shows sound (by simp)
  rw [items] at stored
  rw [ran] at kept ⊢
  refine ⟨m', rfl, (shows.mono fun y same => .inr same).altered sound kept.sound, ?_, stored⟩
  rw [shows.kept l has.ne has.element, has.record, List.length_set]

theorem removeAt_effect (sound : m.heap.Sound none) (has : m.heap.HasItems l s xs)
    (named : Position.element? index xs.length = some i) :
    ∃ m', (removeAt l index).run m = (.ok (), m') ∧ Altered (Own l s) m.heap m'.heap ∧
      m'.heap.HasItems l s (xs.eraseIdx i) := by
  obtain ⟨c, carries, items⟩ := sound.carries_of_items has.storage
  have kept : Kept false (fun _ => True) m.heap ((removeAt l index).run m).2.heap :=
    (keeps_removeAt (fun _ => False) l index m sound fun _ none => none.elim).1
  rw [removeAt, run_bind_ok (run_record has), run_bind_ok (run_position_ok (r := ⟨xs.length, s⟩) named)] at kept ⊢
  obtain ⟨m', ran, filled⟩ := SegList.remove_filled sound.orderly carries (items ▸ Position.element?_lt named)
  rw [items] at filled
  exact shrink_effect (· - 1) sound has items ran filled (List.length_eraseIdx_of_lt (Position.element?_lt named)) kept

theorem clear_effect (sound : m.heap.Sound none) (has : m.heap.HasItems l s xs) :
    ∃ m', (clear l).run m = (.ok (), m') ∧ Altered (Own l s) m.heap m'.heap ∧ m'.heap.HasItems l s [] := by
  obtain ⟨c, carries, items⟩ := sound.carries_of_items has.storage
  have kept : Kept false (fun _ => True) m.heap ((clear l).run m).2.heap :=
    (keeps_clear (fun _ => False) l m sound fun _ none => none.elim).1
  rw [clear, run_bind_ok (run_record has)] at kept ⊢
  obtain ⟨m', ran, filled⟩ := SegList.clear_filled carries
  exact shrink_effect (fun _ => 0) sound has items ran filled rfl kept

/-- A scan of the elements is one of the storage. -/
theorem findFrom_eq (storage value : Handle) (count i : Nat) :
    findFrom storage value count i =
      (do
        match ← DictObject.findFrom storage (fun h => h.sameAs value) count i with
        | some i => return i
        | none => throw .notInList) := by
  induction count generalizing i with
  | zero => rfl
  | succ count ih =>
    rw [findFrom, DictObject.findFrom, bind_assoc]
    refine bind_congr fun x => ?_
    rw [bind_assoc]
    funext m
    show HeapM.run _ m = HeapM.run _ m
    rw [run_bind, run_bind, run_inspect, run_inspect, sameAs]
    cases m.heap.compare x value with
    | error e => rfl
    | ok comparison =>
      cases comparison with
      | same => rfl
      | differ => exact congrFun (ih (i + 1)) m

/-- Looking for an element is searching, and where none is found, an error. -/
theorem run_indexOf {value : Handle} (sound : m.heap.Sound none) (has : m.heap.HasItems l s xs)
    (element : m.heap.Element value) :
    ∃ m', (indexOf l value).run m =
        ((search (m.heap.sameAs value) xs).bind fun found => found.elim (.error .notInList) .ok, m') ∧
      Glanced m.heap m'.heap := by
  have steady : ∀ g, Glanced m.heap g → ∀ x ∈ xs, g.sameAs value x = m.heap.sameAs value x := fun g glanced x member =>
    glanced.sameAs sound element.live (sound.element_of_ref has.storage member)
  obtain ⟨m', ran, glanced⟩ :=
    DictObject.run_findFrom sound has.storage steady (Nat.zero_add xs.length)
  refine ⟨m', ?_, glanced⟩
  rw [indexOf, run_bind_ok (run_record has), findFrom_eq, run_bind, ran, List.drop_zero]
  cases search (m.heap.sameAs value) xs with
  | error e => rfl
  | ok found => cases found <;> rfl

end ListObject

end ChunkHeap

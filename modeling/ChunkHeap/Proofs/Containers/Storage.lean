import ChunkHeap.Proofs.Keeping

/-!
# Updating a segmented list

`Heap.Updated` says what the five updates of a segmented list have in common. Two
of them allocate, so they may collect, keeping `pin`, the reference to be added;
these let the list grow only. The other three do not collect (`pin` is absent).
What an update can rely on afterwards is accordingly `Heap.Held`: what is within
reach of the roots, or just what is live.
-/

namespace ChunkHeap
set_option autoImplicit false

open HeapM

namespace Heap

variable {h g k : Heap} {x y s : Handle} {p q : Payload} {c c' : Chain} {loose : Option Handle} {pin : Option Handle}
  {S : Handle → Prop} {resize : Nat → Nat}

/-- The object lasts through an update that keeps `pin`. -/
def Held (pin : Option Handle) (h : Heap) (x : Handle) : Prop :=
  match pin with
  | none => h.Element x
  | some _ => h.Anchored x

theorem Anchored.held (anchored : h.Anchored x) : h.Held pin x := by
  cases pin with
  | none => exact anchored.2
  | some _ => exact anchored

theorem Held.element (held : h.Held pin x) : h.Element x := by
  cases pin with
  | none => exact held
  | some _ => exact held.2

/-- The storages of a container that lasts also last. -/
theorem Held.child (held : h.Held pin x) (found : h.find? x = some p) (child : y ∈ p.children) (element : h.Element y) :
    h.Held pin y := by
  cases pin with
  | none => exact element
  | some _ => exact ⟨reaches_edge held.1 found child, element⟩

/-- From `h` to `g` there may have been a collection that keeps `pin`. -/
def Cleared (pin : Option Handle) (h g : Heap) : Prop :=
  g = h ∨ ∃ x ∈ pin, h.Element x ∧ Swept [x] h g

namespace Cleared

theorem upkeep (cleared : Cleared pin h g) (ok : h.Accounted) : Upkeep h g := by
  rcases cleared with rfl | ⟨x, -, -, swept⟩
  · exact Upkeep.refl g
  · exact swept.upkeep ok

theorem orderly (cleared : Cleared pin h g) (orderly : h.Orderly) : g.Orderly := by
  rcases cleared with rfl | ⟨x, -, element, swept⟩
  · exact orderly
  · exact orderly.swept (by simpa using element) swept

theorem sound (cleared : Cleared pin h g) (sound : h.Sound loose) : g.Sound loose := by
  rcases cleared with rfl | ⟨x, -, element, swept⟩
  · exact sound
  · exact sound.swept (by simpa using element) swept

theorem confined (cleared : Cleared pin h g) (ok : h.Accounted) : Confined S h g := by
  rcases cleared with rfl | ⟨x, -, -, swept⟩
  · exact (Glanced.refl g).confined
  · exact swept.confined ok

theorem held (cleared : Cleared pin h g) (ok : h.Accounted) (held : h.Held pin y) : g.Held pin y := by
  rcases cleared with rfl | ⟨x, pinned, -, swept⟩
  · exact held
  · cases pinned
    exact swept.anchored ok held

theorem find? (cleared : Cleared pin h g) (ok : h.Accounted) (held : h.Held pin y) : g.find? y = h.find? y := by
  rcases cleared with rfl | ⟨x, pinned, -, swept⟩
  · rfl
  · cases pinned
    exact swept.find? ok (held.1.collected _)

theorem of_find? (cleared : Cleared pin h g) (ok : h.Accounted) (found : g.find? y = some p) : h.find? y = some p := by
  rcases cleared with rfl | ⟨x, -, -, swept⟩
  · exact found
  · exact swept.of_find? ok found

end Cleared

/-- What an update of the list `s` comes to: it fails before the list has changed,
or the list has a new chain, with as many references as `resize` says. -/
inductive Updated (pin : Option Handle) (s : Handle) (resize : Nat → Nat) (h : Heap) : Except Error Unit × Machine → Prop
  | failed {e : Error} {m' : Machine} (cleared : Cleared pin h m'.heap) : Updated pin s resize h (.error e, m')
  | changed {g : Heap} {m' : Machine} {c c' : Chain} (cleared : Cleared pin h g) (carries : g.Carries s c)
      (changed : Rechained s c g m'.heap c') (items : ∀ y ∈ (c'.map Prod.snd).flatten, g.Element y)
      (length : (c'.map Prod.snd).flatten.length = resize (c.map Prod.snd).flatten.length)
      (grows : pin ≠ none → (c.map Prod.snd).flatten ⊆ (c'.map Prod.snd).flatten) : Updated pin s resize h (.ok (), m')

theorem Rechained.held (changed : Rechained s c h g c') (orderly : h.Orderly) (carries : h.Carries s c)
    (grows : pin ≠ none → (c.map Prod.snd).flatten ⊆ (c'.map Prod.snd).flatten) (held : h.Held pin y) : g.Held pin y := by
  cases pin with
  | none => exact changed.element carries held
  | some _ => exact changed.anchored orderly carries (grows (by simp)) held

/-- What an update comes to that leaves the references `xs` in the list `s`, which
had the chain `c`: there was no room, or the list has a chain with just these. -/
inductive Filled (pin : Option Handle) (s : Handle) (c : Chain) (xs : List Handle) (h : Heap) :
    Except Error Unit × Machine → Prop
  | failed {e : Error} {m' : Machine} (cleared : Cleared pin h m'.heap) (memory : e.kind = .memory)
      (full : (c.map Prod.snd).flatten.length % segmentCapacity = 0)
      (refused : ¬ m'.heap.Admits (Payload.segment {}).chunkBytes) : Filled pin s c xs h (.error e, m')
  | filled {g : Heap} {m' : Machine} {c' : Chain} (cleared : Cleared pin h g) (carries : g.Carries s c)
      (changed : Rechained s c g m'.heap c') (items : (c'.map Prod.snd).flatten = xs)
      (elements : ∀ y ∈ xs, g.Element y) : Filled pin s c xs h (.ok (), m')

theorem Filled.updated {xs : List Handle} {outcome : Except Error Unit × Machine} (filled : Filled pin s c xs h outcome)
    (length : xs.length = resize (c.map Prod.snd).flatten.length)
    (grows : pin ≠ none → (c.map Prod.snd).flatten ⊆ xs) : Updated pin s resize h outcome := by
  cases filled with
  | failed cleared _ _ _ => exact .failed cleared
  | filled cleared carries changed items elements =>
    subst items
    exact .changed cleared carries changed elements length grows

/-- Adding a reference is an update. -/
theorem Grown.filled {xs : List Handle} {outcome : Except Error Unit × Machine} {r : SegListRecord}
    (grown : Grown s x c xs h outcome) (orderly : h.Orderly) (found : h.find? s = some (.seglist r))
    (chained : h.Chained r c) (rooted : h.Rooted s) (element : h.Element x)
    (perm : xs.Perm (x :: (c.map Prod.snd).flatten)) : Filled (some x) s c xs h outcome := by
  have ok := orderly.accounted
  have clears : ∀ {g}, Swept [x] h g → Cleared (some x) h g := fun swept => .inr ⟨x, rfl, element, swept⟩
  cases grown with
  | failed swept memory full refused => exact .failed (clears swept) memory full refused
  | @grown g m' c' swept changed items =>
    obtain ⟨found', chained'⟩ := chained.swept found ok (rooted.collected _) swept
    have carries : g.Carries s c := ⟨r, found', chained'⟩
    refine .filled (clears swept) carries changed items fun y member => ?_
    rw [perm.mem_iff, List.mem_cons] at member
    rcases member with rfl | member
    · exact swept.element ok element (.start (by simp [collectionRoots]))
    · exact ((clears swept).orderly orderly).item_element carries member

end Heap

/-! ### The five updates -/

namespace SegList

open Heap

variable {m : Machine} {s x : Handle} {c : Chain} {i : Nat}

theorem append_filled (orderly : m.heap.Orderly) (carries : m.heap.Carries s c) (rooted : m.heap.Rooted s)
    (element : m.heap.Element x) :
    Filled (some x) s c ((c.map Prod.snd).flatten ++ [x]) m.heap ((append s x).run m) := by
  obtain ⟨r, found, chained⟩ := carries
  have grown := append_spec x found chained orderly.accounted (rooted.collected _)
  exact grown.filled orderly found chained rooted element (List.perm_append_singleton _ _)

theorem insert_filled (orderly : m.heap.Orderly) (carries : m.heap.Carries s c) (rooted : m.heap.Rooted s)
    (element : m.heap.Element x) (inside : i ≤ (c.map Prod.snd).flatten.length) :
    Filled (some x) s c ((c.map Prod.snd).flatten.insertIdx i x) m.heap ((insert s x i).run m) := by
  obtain ⟨r, found, chained⟩ := carries
  have grown := insert_spec x found chained orderly.accounted (rooted.collected _) (chained.length ▸ inside)
  exact grown.filled orderly found chained rooted element (List.perm_insertIdx x _ inside)

theorem set_filled (orderly : m.heap.Orderly) (carries : m.heap.Carries s c) (element : m.heap.Element x)
    (inside : i < (c.map Prod.snd).flatten.length) :
    ∃ m', (set s i x).run m = (.ok (), m') ∧ Filled none s c ((c.map Prod.snd).flatten.set i x) m.heap (.ok (), m') := by
  obtain ⟨r, found, chained⟩ := id carries
  obtain ⟨m', c', done, changed, items⟩ := set_spec x found chained (chained.length ▸ inside)
  refine ⟨m', done, .filled (.inl rfl) carries changed items fun y member => ?_⟩
  rcases List.mem_or_eq_of_mem_set member with old | rfl
  · exact orderly.item_element carries old
  · exact element

theorem remove_filled (orderly : m.heap.Orderly) (carries : m.heap.Carries s c)
    (inside : i < (c.map Prod.snd).flatten.length) :
    ∃ m', (remove s i).run m = (.ok (), m') ∧ Filled none s c ((c.map Prod.snd).flatten.eraseIdx i) m.heap (.ok (), m') := by
  obtain ⟨r, found, chained⟩ := id carries
  obtain ⟨m', c', done, changed, items⟩ := remove_spec found chained (chained.length ▸ inside)
  refine ⟨m', done, .filled (.inl rfl) carries changed items fun y member => ?_⟩
  exact orderly.item_element carries (List.mem_of_mem_eraseIdx member)

theorem clear_filled (carries : m.heap.Carries s c) :
    ∃ m', (clear s).run m = (.ok (), m') ∧ Filled none s c [] m.heap (.ok (), m') := by
  obtain ⟨r, found, chained⟩ := id carries
  obtain ⟨m', done, changed⟩ := clear_spec found chained
  exact ⟨m', done, .filled (.inl rfl) carries changed rfl (by simp)⟩

theorem append_updated (orderly : m.heap.Orderly) (rooted : m.heap.Rooted s) (element : m.heap.Element x) :
    Updated (some x) s (· + 1) m.heap ((append s x).run m) := by
  cases read : m.heap.segListRecord s with
  | error e =>
    rw [append, run_bind_error (by rw [run_inspect, read])]
    exact .failed (.inl rfl)
  | ok r =>
    have found := segListRecord_eq_ok_iff.1 read
    obtain ⟨c, chained⟩ := orderly.chains s r found
    exact (append_filled orderly ⟨r, found, chained⟩ rooted element).updated (by simp) fun _ => List.subset_append_left _ _

theorem insert_updated (i : Nat) (orderly : m.heap.Orderly) (rooted : m.heap.Rooted s) (element : m.heap.Element x) :
    Updated (some x) s (· + 1) m.heap ((insert s x i).run m) := by
  cases read : m.heap.segListRecord s with
  | error e =>
    rw [insert, run_bind_error (by rw [run_inspect, segListLength, read]; rfl)]
    exact .failed (.inl rfl)
  | ok r =>
    have found := segListRecord_eq_ok_iff.1 read
    by_cases outside : r.length < i
    · rw [run_insert_range x found outside]
      exact .failed (.inl rfl)
    · obtain ⟨c, chained⟩ := orderly.chains s r found
      have inside : i ≤ (c.map Prod.snd).flatten.length := by
        rw [← chained.length]
        omega
      have perm := List.perm_insertIdx x (c.map Prod.snd).flatten inside
      refine (insert_filled orderly ⟨r, found, chained⟩ rooted element inside).updated perm.length_eq fun _ y member => ?_
      exact perm.mem_iff.2 (List.mem_cons_of_mem _ member)

theorem set_updated (i : Nat) (orderly : m.heap.Orderly) (element : m.heap.Element x) :
    Updated none s id m.heap ((set s i x).run m) := by
  rcases locate_fails_or s i m with ⟨e, failed⟩ | ⟨r, found, inside⟩
  · rw [set, run_bind_error failed]
    exact .failed (.inl rfl)
  · obtain ⟨c, chained⟩ := orderly.chains s r found
    obtain ⟨m', done, filled⟩ := set_filled orderly ⟨r, found, chained⟩ element (chained.length ▸ inside)
    rw [done]
    exact filled.updated List.length_set (by simp)

theorem remove_updated (i : Nat) (orderly : m.heap.Orderly) :
    Updated none s (· - 1) m.heap ((remove s i).run m) := by
  rcases locate_fails_or s i m with ⟨e, failed⟩ | ⟨r, found, inside⟩
  · rw [remove, run_bind_error failed]
    exact .failed (.inl rfl)
  · obtain ⟨c, chained⟩ := orderly.chains s r found
    rw [chained.length] at inside
    obtain ⟨m', done, filled⟩ := remove_filled orderly ⟨r, found, chained⟩ inside
    rw [done]
    exact filled.updated (List.length_eraseIdx_of_lt inside) (by simp)

theorem clear_updated (orderly : m.heap.Orderly) : Updated none s (fun _ => 0) m.heap ((clear s).run m) := by
  cases read : m.heap.segListRecord s with
  | error e =>
    rw [clear, run_bind_error (by rw [run_inspect, read])]
    exact .failed (.inl rfl)
  | ok r =>
    have found := segListRecord_eq_ok_iff.1 read
    obtain ⟨c, chained⟩ := orderly.chains s r found
    obtain ⟨m', done, filled⟩ := clear_filled ⟨r, found, chained⟩
    rw [done]
    exact filled.updated rfl (by simp)

end SegList

/-! ### Updates of a list of its own, and of the storage of a container -/

theorem Payload.tag_of_storages {p : Payload} {s : Handle} (stored : s ∈ p.storages) :
    p.tag ≠ .seglist ∧ p.tag ≠ .segment := by
  cases p <;> simp [storages, tag] at stored ⊢

namespace Heap

variable {h g : Heap} {x y s : Handle} {p : Payload} {loose pin : Option Handle} {building : Bool}
  {S : Handle → Prop} {resize : Nat → Nat} {outcome : Except Error Unit × Machine}

/-- An update keeps a heap sound if the list belongs to no container or its length
stays. -/
theorem Updated.kept (updated : Updated pin s resize h outcome) (sound : h.Sound none)
    (fits : ∀ y p, h.find? y = some p → s ∈ p.storages → ∀ n, resize n = n) (inside : S s) :
    Kept building S h outcome.2.heap := by
  have ok := sound.accounted
  cases updated with
  | failed cleared => exact (cleared.upkeep ok).kept (cleared.sound sound) (cleared.confined ok)
  | @changed g m' c c' cleared carries changed items length _ =>
    have sound' := cleared.sound sound
    have upkeep := cleared.upkeep ok
    refine (upkeep.trans changed.toUpkeep).kept (sound'.rechained carries changed items ?_ (.inl rfl)) ?_
    · intro y p found stored
      right
      rw [length, fits y p (cleared.of_find? ok found) stored]
    · exact (cleared.confined ok).trans upkeep.roots_subset
        (changed.confined sound' carries inside)

theorem Updated.orderly (updated : Updated pin s resize h outcome) (orderly : h.Orderly) : outcome.2.heap.Orderly := by
  cases updated with
  | failed cleared => exact cleared.orderly orderly
  | changed cleared carries changed items _ _ => exact (cleared.orderly orderly).rechained carries changed items

theorem Updated.held (updated : Updated pin s resize h outcome) (orderly : h.Orderly) (done : outcome.1 = .ok ())
    (held : h.Held pin y) : outcome.2.heap.Held pin y := by
  cases updated with
  | failed _ => cases done
  | changed cleared carries changed _ _ grows =>
    exact changed.held (cleared.orderly orderly) carries grows (cleared.held orderly.accounted held)

/-- From `h` to `g` the storage `s` of the container `x` has been updated; the
container itself is still to be told. -/
structure Refilled (pin : Option Handle) (x : Handle) (p : Payload) (s : Handle) (resize : Nat → Nat) (h g : Heap) :
    Prop extends Upkeep h g where
  sound : g.Sound (some x)
  container : g.find? x = some p
  storage : ∀ r, h.find? s = some (.seglist r) → ∃ r', g.find? s = some (.seglist r') ∧ r'.length = resize r.length
  others : ∀ t ∈ p.storages, t ≠ s → g.find? t = h.find? t
  held : ∀ y, h.Held pin y → g.Held pin y
  confined : ∀ S : Handle → Prop, S s → Confined S h g

theorem Updated.owned (updated : Updated pin s resize h outcome) (sound : h.Sound loose)
    (wider : loose = none ∨ loose = some x) (found : h.find? x = some p) (stored : s ∈ p.storages)
    (held : h.Held pin x) :
    (∃ e m', outcome = (.error e, m') ∧ Cleared pin h m'.heap) ∨
      ∃ m', outcome = (.ok (), m') ∧ Refilled pin x p s resize h m'.heap := by
  have ok := sound.accounted
  cases updated with
  | failed cleared => exact .inl ⟨_, _, rfl, cleared⟩
  | @changed g m' c c' cleared carries changed items length grows =>
    have sound' := cleared.sound sound
    have upkeep := cleared.upkeep ok
    have found' : g.find? x = some p := (cleared.find? ok held).trans found
    have listed : ∀ t ∈ p.storages, ∃ r, h.find? t = some (.seglist r) ∧ g.find? t = some (.seglist r) := by
      intro t member
      obtain ⟨r, list, -⟩ := sound.stores x p found t member
      have lasts := held.child found (p.storages_subset_children member) ⟨_, list, by simp [Payload.tag]⟩
      exact ⟨r, list, (cleared.find? ok lasts).trans list⟩
    have outside : ∀ {y q}, g.find? y = some q → q.tag ≠ .segment → y ≠ s → m'.heap.find? y = some q :=
      fun live tag other => (changed.untouched live other (carries.linked.ne_segment live tag)).2
    refine .inr ⟨m', rfl, { upkeep.trans changed.toUpkeep with
      sound := ?_, container := ?_, storage := ?_, others := ?_, held := ?_, confined := ?_ }⟩
    -- no other container has `s` for storage
    · refine sound'.rechained carries changed items (fun y q live inside => .inl ?_) wider
      rw [sound'.owner x y p q s found' live stored inside]
    · refine outside found' (Payload.tag_of_storages stored).2 ?_
      rintro rfl
      obtain ⟨r, -, list⟩ := listed _ stored
      rw [found'] at list
      cases list
      exact (Payload.tag_of_storages stored).1 rfl
    · intro r list
      obtain ⟨r₁, list₁, there⟩ := listed s stored
      rw [list] at list₁
      cases list₁
      obtain ⟨_, record, chained⟩ := carries
      rw [there] at record
      cases record
      obtain ⟨r', record', chained'⟩ := changed.here
      exact ⟨r', record', by rw [chained'.length, length, chained.length]⟩
    · intro t member other
      obtain ⟨r, list, list'⟩ := listed t member
      rw [list, outside list' (by simp [Payload.tag]) other]
    · exact fun y lasts => changed.held sound'.orderly carries grows (cleared.held ok lasts)
    · exact fun S inside => (cleared.confined ok).trans upkeep.roots_subset
        (changed.confined sound' carries inside)

/-- While the storage of a container has been updated and the container not been
told, it is loose. -/
theorem Filled.loosened {m' : Machine} {c : Chain} {xs : List Handle} (filled : Filled pin s c xs h (.ok (), m'))
    (sound : h.Sound loose) (wider : loose = none ∨ loose = some x) (found : h.find? x = some p) (stored : s ∈ p.storages)
    (held : h.Held pin x) (grows : pin ≠ none → (c.map Prod.snd).flatten ⊆ xs) : m'.heap.Sound (some x) := by
  have updated : Updated pin s (fun _ => xs.length) h (.ok (), m') := filled.updated rfl grows
  rcases updated.owned sound wider found stored held with ⟨e, _, failed, -⟩ | ⟨_, done, refilled⟩
  · cases failed
  · cases done
    exact refilled.sound

end Heap

end ChunkHeap

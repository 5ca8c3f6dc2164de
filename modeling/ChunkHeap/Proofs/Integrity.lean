import ChunkHeap.Proofs.Chain.Layout

/-!
# Containers and their storages

A list keeps its elements in a segmented list, a table its keys and values in two.
`Heap.Orderly` adds to the shape of a heap that the roots are live, `Heap.Sound`
also that every container has storages of its own, and that these are as long as
the container says. The last may fail for one container that is being updated, `loose`.

There is one lemma for each thing that operations do: collecting, entering an
object, changing a chain, rewriting an object, changing the roots.
-/

namespace ChunkHeap
set_option autoImplicit false

namespace Payload

/-- The segmented lists that hold the elements of a container. -/
def storages : Payload → List Handle
  | .list r => [r.storage]
  | .dict r => [r.keys, r.vals]
  | _ => []

/-- The number of elements that a container has on record. -/
def count : Payload → Nat
  | .list r => r.length
  | .dict r => r.length
  | _ => 0

theorem storages_subset_children (p : Payload) : p.storages ⊆ p.children := by
  cases p with
  | list r => exact List.Subset.refl _
  | dict r => exact List.Subset.refl _
  | _ => exact List.nil_subset _

end Payload

namespace Heap

variable {h g k : Heap} {x y s : Handle} {p q : Payload} {c c' : Chain} {loose : Option Handle}

/-- A heap in shape whose roots are live. -/
structure Orderly (h : Heap) : Prop extends Shaped h where
  roots : ∀ x ∈ h.collectionRoots [], h.Element x

namespace Orderly

theorem unsegmented (orderly : h.Orderly) : h.Unsegmented (h.collectionRoots []) :=
  fun x member => (orderly.roots x member).not_segment

/-- A collection leaves a heap in order. -/
theorem swept {pins : List Handle} (orderly : h.Orderly) (elements : ∀ x ∈ pins, h.Element x) (swept : Swept pins h g) :
    g.Orderly := by
  have ok := orderly.accounted
  refine { orderly.toShaped.swept (orderly.unsegmented.pinned elements) swept with roots := fun x member => ?_ }
  rw [(swept.upkeep ok).collectionRoots] at member
  exact swept.element ok (orderly.roots x member) (Rooted.collected (.start member) pins)

theorem entered (orderly : h.Orderly) (entered : Entered x p h g) (refs : ∀ y ∈ p.refs, h.Element y)
    (list : ∀ r, p = .seglist r → r = {}) (segment : p.tag ≠ .segment) : g.Orderly := by
  refine { orderly.toShaped.entered entered refs list segment with roots := fun y member => ?_ }
  rw [entered.collectionRoots] at member
  obtain ⟨q, found, tag⟩ := orderly.roots y member
  exact ⟨q, (entered.live found).2, tag⟩

theorem rechained (orderly : h.Orderly) (carries : h.Carries s c) (changed : Rechained s c h g c')
    (items : ∀ y ∈ (c'.map Prod.snd).flatten, h.Element y) : g.Orderly := by
  refine { orderly.toShaped.rechained carries changed items with roots := fun x member => ?_ }
  rw [changed.collectionRoots] at member
  exact changed.element carries (orderly.roots x member)

theorem rewritten (orderly : h.Orderly) (found : h.find? x = some p) (edited : Edited (· = x) h g)
    (written : g.find? x = some q) (refs : ∀ y ∈ q.refs, h.Element y) (tag : q.tag = p.tag)
    (list : p.tag ≠ .seglist) (segment : p.tag ≠ .segment) : g.Orderly := by
  refine { orderly.toShaped.rewritten found edited written refs tag list segment with roots := fun y member => ?_ }
  rw [edited.collectionRoots] at member
  obtain ⟨r, live, other⟩ := orderly.roots y member
  by_cases same : y = x
  · exact ⟨q, same ▸ written, tag ▸ segment⟩
  · exact ⟨r, (edited.outside y same).trans live, other⟩

/-- The roots may be replaced by others that are live. -/
theorem rerooted (orderly : h.Orderly) {roots : RootSet} (elements : ∀ x ∈ roots.toList, h.Element x) :
    { h with roots := roots }.Orderly :=
  { accounted := ⟨orderly.accounted.arena, orderly.accounted.bytes⟩
    headed := orderly.headed
    refs := orderly.refs
    chains := fun x r found => by
      obtain ⟨c, chained⟩ := orderly.chains x r found
      exact ⟨c, chained.congr fun _ _ => rfl⟩
    disjoint := fun x y c d left right => orderly.disjoint x y c d
      (left.imp fun _ facts => ⟨facts.1, facts.2.congr fun _ _ => rfl⟩)
      (right.imp fun _ facts => ⟨facts.1, facts.2.congr fun _ _ => rfl⟩)
    covered := fun s r found => by
      obtain ⟨x, c, ⟨r', live, chained⟩, member⟩ := orderly.covered s r found
      exact ⟨x, c, ⟨r', live, chained.congr fun _ _ => rfl⟩, member⟩
    roots := by
      intro x member
      rcases List.mem_append.1 (by simpa [collectionRoots] using member) with root | constant
      · exact elements x root
      · exact orderly.roots x (by simp [collectionRoots, constant]) }

end Orderly

/-- A heap in shape whose roots are live and whose containers are in order, but
for the length of `loose`. -/
structure Sound (loose : Option Handle) (h : Heap) : Prop extends Shaped h where
  roots : ∀ x ∈ h.collectionRoots [], h.Element x
  separate : ∀ x p, h.find? x = some p → p.storages.Nodup
  stores : ∀ x p, h.find? x = some p → ∀ s ∈ p.storages,
    ∃ r, h.find? s = some (.seglist r) ∧ (loose ≠ some x → r.length = p.count)
  owner : ∀ x y p q s, h.find? x = some p → h.find? y = some q → s ∈ p.storages → s ∈ q.storages → x = y

/-- A container that fits its storages is not loose. -/
theorem Sound.tighten (sound : h.Sound (some x)) (found : h.find? x = some p)
    (fits : ∀ s ∈ p.storages, ∃ r, h.find? s = some (.seglist r) ∧ r.length = p.count) : h.Sound none := by
  refine { sound with stores := fun y q live s member => ?_ }
  by_cases same : y = x
  · subst same
    rw [found] at live
    cases live
    exact (fits s member).imp fun _ facts => ⟨facts.1, fun _ => facts.2⟩
  · refine (sound.stores y q live s member).imp fun _ facts => ⟨facts.1, fun _ => facts.2 fun loose => same ?_⟩
    exact (Option.some.inj loose).symm

theorem Sound.orderly (sound : h.Sound loose) : h.Orderly :=
  { sound with }

theorem Sound.unsegmented (sound : h.Sound loose) : h.Unsegmented (h.collectionRoots []) :=
  sound.orderly.unsegmented

/-- What the roots lead to is live. -/
theorem Sound.live (sound : h.Sound loose) {starts : List Handle} (subset : starts ⊆ h.collectionRoots [])
    (reached : h.arena.Reaches starts x) : ∃ p, h.find? x = some p := by
  induction reached with
  | start member => exact (sound.roots _ (subset member)).imp fun _ facts => facts.1
  | edge _ found edge _ => exact sound.edges (find?_eq_some_iff.2 ⟨_, found, rfl⟩) edge

/-- A collection keeps a heap sound. -/
theorem Sound.swept {pins : List Handle} (sound : h.Sound loose) (elements : ∀ x ∈ pins, h.Element x)
    (swept : Swept pins h g) : g.Sound loose := by
  have ok := sound.accounted
  have reached : ∀ {x p}, g.find? x = some p → ∀ y ∈ p.children, g.find? y = h.find? y := by
    intro x p found y child
    rcases swept with rfl | rfl
    · rfl
    · obtain ⟨before, reached⟩ := (find?_collectWith ok.arena).1 found
      exact Swept.find? (.inr rfl) ok (reaches_edge reached before child)
  refine { sound.orderly.swept elements swept with separate := ?_, stores := ?_, owner := ?_ }
  · exact fun x p found => sound.separate x p (swept.of_find? ok found)
  · intro x p found s member
    rw [reached found s (p.storages_subset_children member)]
    exact sound.stores x p (swept.of_find? ok found) s member
  · exact fun x y p q s left right => sound.owner x y p q s (swept.of_find? ok left) (swept.of_find? ok right)

/-- Entering an object that owns no storage, or storages that nothing owns. -/
theorem Sound.entered (sound : h.Sound loose) (entered : Entered x p h g) (refs : ∀ y ∈ p.refs, h.Element y)
    (list : ∀ r, p = .seglist r → r = {}) (segment : p.tag ≠ .segment) (separate : p.storages.Nodup)
    (stores : ∀ s ∈ p.storages, ∃ r, h.find? s = some (.seglist r) ∧ r.length = p.count)
    (unowned : ∀ s ∈ p.storages, ∀ y q, h.find? y = some q → s ∉ q.storages) : g.Sound loose := by
  have old : ∀ {y q}, g.find? y = some q → (y = x ∧ q = p) ∨ (y ≠ x ∧ h.find? y = some q) := by
    intro y q found
    by_cases same : y = x
    · subst same
      rw [entered.here] at found
      exact .inl ⟨rfl, (Option.some.inj found).symm⟩
    · exact .inr ⟨same, (entered.other same).symm.trans found⟩
  refine { sound.orderly.entered entered refs list segment with separate := ?_, stores := ?_, owner := ?_ }
  · intro y q found
    rcases old found with ⟨-, rfl⟩ | ⟨-, before⟩
    · exact separate
    · exact sound.separate y q before
  · intro y q found s member
    rcases old found with ⟨-, rfl⟩ | ⟨-, before⟩
    · obtain ⟨r, live, length⟩ := stores s member
      exact ⟨r, (entered.live live).2, fun _ => length⟩
    · obtain ⟨r, live, length⟩ := sound.stores y q before s member
      exact ⟨r, (entered.live live).2, length⟩
  · intro y z q r s left right inside inside'
    rcases old left with ⟨rfl, rfl⟩ | ⟨-, before⟩
    · rcases old right with ⟨rfl, -⟩ | ⟨-, before'⟩
      · rfl
      · exact absurd inside' (unowned s inside z r before')
    · rcases old right with ⟨rfl, rfl⟩ | ⟨-, before'⟩
      · exact absurd inside (unowned s inside' y q before)
      · exact sound.owner y z q r s before before' inside inside'

/-- The containers are the same before and after a chain has changed. -/
theorem Rechained.container (changed : Rechained s c h g c') {t : Handle} (found : g.find? x = some p)
    (stored : t ∈ p.storages) : h.find? x = some p := by
  have other : x ≠ s := by
    rintro rfl
    obtain ⟨r, here, -⟩ := changed.here
    rw [here] at found
    cases found
    cases stored
  have away : x ∉ c'.map Prod.fst := by
    intro member
    obtain ⟨r, segment⟩ := changed.here.linked.segment member
    rw [segment] at found
    cases found
    cases stored
  exact (changed.was_there found other away).2

/-- Changing the chain of a list keeps a heap sound, but for the length of the
container that the list belongs to. -/
theorem Sound.rechained (sound : h.Sound loose) {loose' : Option Handle} (carries : h.Carries s c)
    (changed : Rechained s c h g c') (items : ∀ y ∈ (c'.map Prod.snd).flatten, h.Element y)
    (exempt : ∀ x p, h.find? x = some p → s ∈ p.storages →
      loose' = some x ∨ (c'.map Prod.snd).flatten.length = (c.map Prod.snd).flatten.length)
    (wider : loose = none ∨ loose = loose') : g.Sound loose' := by
  refine { sound.orderly.rechained carries changed items with separate := ?_, stores := ?_, owner := ?_ }
  · intro x p found
    cases none : p.storages with
    | nil => exact List.nodup_nil
    | cons t rest => exact none ▸ sound.separate x p (changed.container found (none ▸ List.mem_cons_self))
  · intro x p found t member
    have before := changed.container found member
    obtain ⟨r, live, length⟩ := sound.stores x p before t member
    by_cases same : t = s
    · subst same
      obtain ⟨r', here, chained'⟩ := changed.here
      obtain ⟨_, record, chained⟩ := carries
      rw [live] at record
      cases record
      refine ⟨r', here, fun other => ?_⟩
      have tight : loose ≠ some x := by
        rcases wider with rfl | rfl
        · simp
        · exact other
      rcases exempt x p before member with exempted | lengths
      · exact absurd exempted other
      · rw [chained'.length, lengths, ← chained.length, length tight]
    · have outside := carries.linked.ne_segment live (by simp [Payload.tag])
      refine ⟨r, (changed.untouched live same outside).2, fun other => length ?_⟩
      rcases wider with rfl | rfl
      · simp
      · exact other
  · intro x y p q t left right inside inside'
    exact sound.owner x y p q t (changed.container left inside) (changed.container right inside') inside inside'

/-- Rewriting an object of another kind, with a length that fits, leaves nothing
loose. -/
theorem Sound.rewritten (sound : h.Sound loose) (found : h.find? x = some p) (edited : Edited (· = x) h g)
    (written : g.find? x = some q) (refs : ∀ y ∈ q.refs, h.Element y) (tag : q.tag = p.tag)
    (list : p.tag ≠ .seglist) (segment : p.tag ≠ .segment) (storages : q.storages = p.storages)
    (lengths : ∀ t ∈ q.storages, ∀ r, h.find? t = some (.seglist r) → r.length = q.count)
    (only : ∀ y, loose = some y → y = x) : g.Sound none := by
  have old : ∀ {y r}, g.find? y = some r → (y = x ∧ r = q) ∨ (y ≠ x ∧ h.find? y = some r) := by
    intro y r live
    by_cases same : y = x
    · subst same
      rw [written] at live
      exact .inl ⟨rfl, (Option.some.inj live).symm⟩
    · exact .inr ⟨same, (edited.outside y same).symm.trans live⟩
  have kept : ∀ {t r}, h.find? t = some (.seglist r) → g.find? t = some (.seglist r) := by
    intro t r live
    refine (edited.outside t ?_).trans live
    rintro rfl
    rw [found] at live
    cases live
    exact list rfl
  have orderly := sound.orderly.rewritten found edited written refs tag list segment
  refine { orderly with separate := ?_, stores := ?_, owner := ?_ }
  · intro y r live
    rcases old live with ⟨-, rfl⟩ | ⟨-, before⟩
    · exact storages ▸ sound.separate x p found
    · exact sound.separate y r before
  · intro y r live t member
    rcases old live with ⟨-, rfl⟩ | ⟨other, before⟩
    · obtain ⟨l, there, -⟩ := sound.stores x p found t (storages ▸ member)
      exact ⟨l, kept there, fun _ => lengths t member l there⟩
    · obtain ⟨l, there, length⟩ := sound.stores y r before t member
      exact ⟨l, kept there, fun _ => length fun same => other (only y same)⟩
  · intro y z r r' t left right inside inside'
    rcases old left with ⟨rfl, rfl⟩ | ⟨-, before⟩
    · rcases old right with ⟨rfl, -⟩ | ⟨-, before'⟩
      · rfl
      · exact sound.owner _ z p r' t found before' (storages ▸ inside) inside'
    · rcases old right with ⟨rfl, rfl⟩ | ⟨-, before'⟩
      · exact sound.owner y _ r p t before found inside (storages ▸ inside')
      · exact sound.owner y z r r' t before before' inside inside'

/-- The roots may be replaced by others that are live. -/
theorem Sound.rerooted (sound : h.Sound loose) {roots : RootSet} (elements : ∀ x ∈ roots.toList, h.Element x) :
    { h with roots := roots }.Sound loose :=
  { sound.orderly.rerooted elements with
    separate := sound.separate
    stores := sound.stores
    owner := sound.owner }

end Heap

end ChunkHeap

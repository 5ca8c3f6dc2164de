import ChunkHeap.Proofs.Reading

/-!
# What stays within reach

An operation may collect at several points, so what it still needs has to stay
within reach of the roots from one point to the next. `Heap.Anchored` objects do
so as long as containers only grow. Where a container is overwritten,
`Heap.Confined` serves instead: what the roots lead to around the objects that
are written stays as it is.
-/

namespace ChunkHeap
set_option autoImplicit false

namespace Heap

variable {h g k : Heap} {x y s : Handle} {p q : Payload} {c c' : Chain} {loose : Option Handle}

/-- The roots lead to the object, and it is no segment. -/
def Anchored (h : Heap) (x : Handle) : Prop :=
  h.Rooted x ∧ h.Element x

/-- What is reached from live starts is live. -/
theorem Shaped.live_of_reaches (shaped : h.Shaped) {starts : List Handle} (live : ∀ x ∈ starts, ∃ p, h.find? x = some p)
    (reached : h.arena.Reaches starts x) : ∃ p, h.find? x = some p := by
  induction reached with
  | start member => exact live _ member
  | edge _ found child => exact shaped.edges (find?_eq_some_iff.2 ⟨_, found, rfl⟩) child

theorem Swept.rooted {pins : List Handle} (swept : Swept pins h g) (ok : h.Accounted) (rooted : h.Rooted x) :
    g.Rooted x := by
  rw [Rooted, (swept.upkeep ok).collectionRoots]
  refine reaches_of_children (fun z p reached found => ?_) rooted
  exact ⟨p, (swept.find? ok (Rooted.collected reached pins)).trans found, List.Subset.refl _⟩

theorem Swept.anchored {pins : List Handle} (swept : Swept pins h g) (ok : h.Accounted) (anchored : h.Anchored x) :
    g.Anchored x :=
  ⟨swept.rooted ok anchored.1, swept.element ok anchored.2 (anchored.1.collected pins)⟩

theorem Glanced.anchored (glanced : Glanced h g) (anchored : h.Anchored x) : g.Anchored x :=
  ⟨glanced.rooted_iff.2 anchored.1, glanced.element anchored.2⟩

theorem Entered.anchored (entered : Entered x p h g) (anchored : h.Anchored y) : g.Anchored y := by
  obtain ⟨rooted, q, found, tag⟩ := anchored
  refine ⟨?_, q, (entered.live found).2, tag⟩
  rw [Rooted, entered.collectionRoots]
  exact reaches_of_children (fun z r _ live => ⟨r, (entered.live live).2, List.Subset.refl _⟩) rooted

/-- Rewriting an object with at least the edges it had. -/
theorem Edited.anchored (edited : Edited (· = x) h g) (found : h.find? x = some p) (written : g.find? x = some q)
    (tag : q.tag = p.tag) (wider : p.children ⊆ q.children) (anchored : h.Anchored y) : g.Anchored y := by
  have kept : ∀ z r, h.find? z = some r → ∃ r', g.find? z = some r' ∧ r'.tag = r.tag ∧ r.children ⊆ r'.children := by
    intro z r live
    by_cases same : z = x
    · subst same
      rw [found] at live
      cases live
      exact ⟨q, written, tag, wider⟩
    · exact ⟨r, (edited.outside z same).trans live, rfl, List.Subset.refl _⟩
  obtain ⟨rooted, r, live, other⟩ := anchored
  obtain ⟨r', live', same, -⟩ := kept y r live
  refine ⟨?_, r', live', same ▸ other⟩
  rw [Rooted, edited.collectionRoots]
  refine reaches_of_children (fun z t _ there => ?_) rooted
  obtain ⟨t', there', -, edges⟩ := kept z t there
  exact ⟨t', there', edges⟩

/-- Nothing but a list and its segments leads to its segments. -/
def Enclosed (h : Heap) (s : Handle) (c : Chain) : Prop :=
  ∀ z p, h.find? z = some p → ∀ t ∈ p.children, t ∈ c.map Prod.fst → z = s ∨ z ∈ c.map Prod.fst

theorem Shaped.enclosed (shaped : h.Shaped) (carries : h.Carries s c) : h.Enclosed s c :=
  fun _ _ found _ edge member => shaped.edge_to_segment carries member found edge

/-- A list and its segments lead to the segments and to the contents. -/
theorem Carries.edge {z : Handle} (carries : h.Carries s c) (part : z = s ∨ z ∈ c.map Prod.fst) (found : h.find? z = some p)
    (edge : y ∈ p.children) : y ∈ c.map Prod.fst ∨ y ∈ (c.map Prod.snd).flatten := by
  rcases part with rfl | inside
  · obtain ⟨r, record, chained⟩ := carries
    rw [record] at found
    cases found
    have head : y ∈ r.head := by simpa [Payload.children] using edge
    rw [chained.head] at head
    obtain ⟨e, first, rfl⟩ := Option.map_eq_some_iff.1 head
    exact .inl (List.mem_map_of_mem (List.mem_of_mem_head? first))
  · obtain ⟨r, segment⟩ := carries.linked.segment inside
    rw [segment] at found
    cases found
    rcases List.mem_append.1 edge with held | link
    · exact .inr (carries.linked.items_mem inside segment held)
    · exact .inl (carries.linked.next_mem inside segment (by simpa using link))

/-- While a list grows, whatever has been reached stays within reach, segments by
way of the list. -/
theorem Rechained.reaches {starts : List Handle} (changed : Rechained s c h g c') (carries : h.Carries s c)
    (enclosed : h.Enclosed s c) (apart : ∀ x ∈ starts, x ∉ c.map Prod.fst)
    (grows : (c.map Prod.snd).flatten ⊆ (c'.map Prod.snd).flatten) (reached : h.arena.Reaches starts y) :
    (y ∉ c.map Prod.fst → g.arena.Reaches starts y) ∧ (y ∈ c.map Prod.fst → g.arena.Reaches starts s) := by
  induction reached with
  | @start y member => exact ⟨fun _ => .start member, fun inside => absurd inside (apart y member)⟩
  | @edge z y o before live edge ih =>
    have found : h.find? z = some o.payload := find?_eq_some_iff.2 ⟨o, live, rfl⟩
    by_cases part : z = s ∨ z ∈ c.map Prod.fst
    · -- the list is reached, and with it whatever it holds now
      have here : g.arena.Reaches starts s := by
        rcases part with rfl | inside
        · refine ih.1 fun member => ?_
          obtain ⟨r, record, chained⟩ := carries
          exact chained.linked.ne_list record member rfl
        · exact ih.2 inside
      refine ⟨fun outside => ?_, fun _ => here⟩
      have held := (carries.edge part found edge).resolve_left outside
      exact (changed.here.reaches here).2 y (grows held)
    · obtain ⟨other, outside⟩ := not_or.1 part
      refine ⟨fun _ => reaches_edge (ih.1 outside) (changed.untouched found other outside).2 edge, fun inside => ?_⟩
      exact absurd (enclosed z _ found y edge inside) part

theorem Rechained.anchored (changed : Rechained s c h g c') (orderly : h.Orderly) (carries : h.Carries s c)
    (grows : (c.map Prod.snd).flatten ⊆ (c'.map Prod.snd).flatten) (anchored : h.Anchored y) : g.Anchored y := by
  obtain ⟨rooted, element⟩ := anchored
  refine ⟨?_, changed.element carries element⟩
  rw [Rooted, changed.collectionRoots]
  refine (changed.reaches carries (orderly.enclosed carries) (fun x root inside => ?_) grows rooted).1 ?_
  · obtain ⟨r, segment⟩ := carries.linked.segment inside
    exact orderly.unsegmented x root r segment
  · obtain ⟨p, found, tag⟩ := element
    exact carries.linked.ne_segment found tag

/-! ### Changes elsewhere -/

variable {S T : Handle → Prop}

/-- The roots lead to the object around `S`: by a path that does not go on from
objects of `S`. -/
inductive Around (S : Handle → Prop) (h : Heap) : Handle → Prop
  | root {x : Handle} (member : x ∈ h.collectionRoots []) : Around S h x
  | edge {x y : Handle} {p : Payload} (before : Around S h x) (outside : ¬ S x) (found : h.find? x = some p)
      (child : y ∈ p.children) : Around S h y

theorem Around.rooted (around : Around S h x) : h.Rooted x := by
  induction around with
  | root member => exact .start member
  | edge _ _ found child ih => exact reaches_edge ih found child

/-- A path around `S` is one around `T` if it meets nothing else of `T`. -/
theorem Around.avoids (around : Around S h x) (away : ∀ y, T y → S y ∨ ¬ Around S h y) : Around T h x := by
  induction around with
  | root member => exact .root member
  | edge before outside found child ih =>
    refine .edge ih (fun inside => ?_) found child
    rcases away _ inside with inside' | unmet
    · exact outside inside'
    · exact unmet before

theorem Rooted.around (rooted : h.Rooted x) (away : ∀ y, S y → ¬ h.Rooted y) : Around S h x := by
  induction rooted with
  | start member => exact .root member
  | edge before found child ih =>
    exact .edge ih (fun inside => away _ inside before) (find?_eq_some_iff.2 ⟨_, found, rfl⟩) child

/-- What the roots lead to around `S`, and is not of `S`, holds the same in `g` as
in `h`, up to cursors. -/
def Confined (S : Handle → Prop) (h g : Heap) : Prop :=
  ∀ x p, Around S h x → ¬ S x → h.find? x = some p → ∃ q, g.find? x = some q ∧ q.still = p.still

theorem confined_everywhere (h g : Heap) : Confined (fun _ => True) h g :=
  fun _ _ _ outside => absurd trivial outside

theorem Confined.mono (confined : Confined S h g) (wider : ∀ x, S x → T x) : Confined T h g := by
  intro x p around outside found
  have narrower := around.avoids (T := S) fun y inside => .inl (wider y inside)
  exact confined x p narrower (fun inside => outside (wider x inside)) found

theorem Confined.around (confined : Confined S h g) (roots : h.collectionRoots [] ⊆ g.collectionRoots [])
    (around : Around S h x) : Around S g x := by
  induction around with
  | root member => exact .root (roots member)
  | edge before outside found child ih =>
    obtain ⟨q, after, same⟩ := confined _ _ before outside found
    exact .edge ih outside after (Payload.children_of_still same ▸ child)

theorem Confined.trans (first : Confined S h g) (roots : h.collectionRoots [] ⊆ g.collectionRoots [])
    (second : Confined S g k) : Confined S h k := by
  intro x p around outside found
  obtain ⟨q, after, same⟩ := first x p around outside found
  obtain ⟨r, last, same'⟩ := second x q (first.around roots around) outside after
  exact ⟨r, last, same'.trans same⟩

theorem Glanced.confined (glanced : Glanced h g) : Confined S h g :=
  fun _ _ _ _ found => glanced.alike found

theorem Swept.confined {pins : List Handle} (swept : Swept pins h g) (ok : h.Accounted) : Confined S h g :=
  fun _ p around _ found => ⟨p, (swept.find? ok (around.rooted.collected pins)).trans found, rfl⟩

theorem Entered.confined (entered : Entered x p h g) : Confined S h g :=
  fun _ q _ _ found => ⟨q, (entered.live found).2, rfl⟩

theorem Edited.confined (edited : Edited (· = x) h g) (inside : S x) : Confined S h g := by
  intro y p _ outside found
  have other : y ≠ x := by
    rintro rfl
    exact outside inside
  exact ⟨p, (edited.outside y other).trans found, rfl⟩

/-- A path around a list does not meet its segments. -/
theorem Sound.around_segment (sound : h.Sound loose) (carries : h.Carries s c) (inside : S s) (around : Around S h x) :
    x ∉ c.map Prod.fst := by
  induction around with
  | @root x root =>
    intro member
    obtain ⟨r, segment⟩ := carries.linked.segment member
    exact sound.unsegmented x root r segment
  | @edge x y p before outside found child ih =>
    intro member
    rcases sound.edge_to_segment carries member found child with same | member'
    · exact outside (same ▸ inside)
    · exact ih member'

theorem Rechained.confined (changed : Rechained s c h g c') (sound : h.Sound loose) (carries : h.Carries s c)
    (inside : S s) : Confined S h g := by
  intro y p around outside found
  have other : y ≠ s := by
    rintro rfl
    exact outside inside
  exact ⟨p, (changed.untouched found other (sound.around_segment carries inside around)).2, rfl⟩

end Heap

end ChunkHeap

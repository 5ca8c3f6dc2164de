import ChunkHeap.Proofs.Reach

/-!
# Contents

`Heap.content?` is the view of a heap from outside its segmented lists: an object
is a record, or it is a sequence of references. Segments, cursors and the links
between segments do not show. Every change to a heap is, in this view, an update
at one object, and the rest stays: moving a cursor updates nothing, changing a
chain updates one sequence, rewriting an object one record, and a collection
takes away what is not reached.

Paths in the object graph can be followed in this view as well
(`Shaped.reaches_induction`).
-/

namespace ChunkHeap
set_option autoImplicit false

/-- What an object shows: its record, or the references of a segmented list. -/
inductive Content where
  | record (p : Payload)
  | items (xs : List Handle)

/-- What an object refers to. -/
def Content.refs : Content → List Handle
  | record p => p.refs
  | items xs => xs

namespace Heap

variable {h g k : Heap} {x y s : Handle} {p q : Payload} {c c' : Chain} {xs : List Handle} {content : Content}
  {loose : Option Handle}

/-- What a live object shows. A segment shows nothing. -/
def content? (h : Heap) (x : Handle) : Option Content :=
  match h.find? x with
  | some (.segment _) => none
  | some (.seglist _) => (h.segListItems x).toOption.map .items
  | some p => some (.record p)
  | none => none

/-! ### Contents and payloads -/

theorem content?_of_record (found : h.find? x = some p) (list : p.tag ≠ .seglist) (segment : p.tag ≠ .segment) :
    h.content? x = some (.record p) := by
  unfold content?
  rw [found]
  cases p with
  | seglist r => exact absurd rfl list
  | segment r => exact absurd rfl segment
  | _ => rfl

theorem Carries.content? (carries : h.Carries x c) : h.content? x = some (.items (c.map Prod.snd).flatten) := by
  obtain ⟨r, found, chained⟩ := carries
  unfold Heap.content?
  rw [found, segListItems_eq found chained]
  rfl

theorem content?_of_none (free : h.find? x = none) : h.content? x = none := by
  unfold content?
  rw [free]

theorem content?_of_segment {r : SegmentRecord} (found : h.find? x = some (.segment r)) : h.content? x = none := by
  unfold content?
  rw [found]

theorem find?_of_record (shown : h.content? x = some (.record p)) :
    h.find? x = some p ∧ p.tag ≠ .seglist ∧ p.tag ≠ .segment := by
  unfold content? at shown
  split at shown
  · cases shown
  · obtain ⟨_, -, other⟩ := Option.map_eq_some_iff.1 shown
    cases other
  · rename_i r segment list found
    cases shown
    refine ⟨found, fun tag => ?_, fun tag => ?_⟩
    · cases p with
      | seglist r => exact list r rfl
      | _ => cases tag
    · cases p with
      | segment r => exact segment r rfl
      | _ => cases tag
  · cases shown

/-- What shows as a sequence is a segmented list, read from its chain. -/
theorem segListItems_of_items (shown : h.content? x = some (.items xs)) :
    (∃ r, h.find? x = some (.seglist r)) ∧ h.segListItems x = .ok xs := by
  unfold content? at shown
  split at shown
  · cases shown
  · rename_i r found
    obtain ⟨ys, read, same⟩ := Option.map_eq_some_iff.1 shown
    cases same
    refine ⟨⟨r, found⟩, ?_⟩
    cases outcome : h.segListItems x with
    | error e =>
      rw [outcome] at read
      cases read
    | ok zs =>
      rw [outcome] at read
      exact congrArg Except.ok (Option.some.inj read)
  · cases shown
  · cases shown

theorem content?_of_segListItems (read : h.segListItems x = .ok xs) : h.content? x = some (.items xs) := by
  cases record : h.segListRecord x with
  | error e =>
    rw [segListItems, record] at read
    cases read
  | ok r =>
    unfold content?
    rw [segListRecord_eq_ok_iff.1 record, read]
    rfl

theorem Shaped.carries_of_items (shaped : h.Shaped) (shown : h.content? x = some (.items xs)) :
    ∃ c, h.Carries x c ∧ (c.map Prod.snd).flatten = xs := by
  obtain ⟨⟨r, found⟩, -⟩ := segListItems_of_items shown
  obtain ⟨c, chained⟩ := shaped.chains x r found
  rw [Carries.content? ⟨r, found, chained⟩] at shown
  cases shown
  exact ⟨c, ⟨r, found, chained⟩, rfl⟩

/-- A storage of a container shows as many references as the container has on record. -/
theorem Sound.stored_items (sound : h.Sound none) (found : h.find? x = some p) (stored : s ∈ p.storages) :
    ∃ xs, h.content? s = some (.items xs) ∧ xs.length = p.count := by
  obtain ⟨r, list, length⟩ := sound.stores x p found s stored
  obtain ⟨c, chained⟩ := sound.chains s r list
  refine ⟨_, Carries.content? ⟨r, list, chained⟩, ?_⟩
  rw [← chained.length, length (by simp)]

/-- The objects that show something are those that may be stored. -/
theorem Shaped.element_iff (shaped : h.Shaped) : h.Element x ↔ ∃ content, h.content? x = some content := by
  constructor
  · rintro ⟨p, found, segment⟩
    by_cases list : p.tag = .seglist
    · cases p with
      | seglist r =>
        obtain ⟨c, chained⟩ := shaped.chains x r found
        exact ⟨_, Carries.content? ⟨r, found, chained⟩⟩
      | _ => cases list
    · exact ⟨_, content?_of_record found list segment⟩
  · rintro ⟨content, shown⟩
    cases content with
    | record p =>
      obtain ⟨found, -, segment⟩ := find?_of_record shown
      exact ⟨p, found, segment⟩
    | items xs =>
      obtain ⟨⟨r, found⟩, -⟩ := segListItems_of_items shown
      exact ⟨_, found, by simp [Payload.tag]⟩

theorem Shaped.element_of_ref (shaped : h.Shaped) (shown : h.content? x = some content) (ref : y ∈ content.refs) :
    h.Element y := by
  cases content with
  | record p => exact shaped.refs x p (find?_of_record shown).1 y ref
  | items xs =>
    obtain ⟨c, carries, rfl⟩ := shaped.carries_of_items shown
    exact shaped.item_element carries ref

/-! ### Paths -/

/-- What an object refers to is reached with it. -/
theorem Shaped.reaches_ref (shaped : h.Shaped) {starts : List Handle} (reached : h.arena.Reaches starts x)
    (shown : h.content? x = some content) (ref : y ∈ content.refs) : h.arena.Reaches starts y := by
  cases content with
  | record p => exact reaches_edge reached (find?_of_record shown).1 (refs_subset_children p ref)
  | items xs =>
    obtain ⟨c, carries, rfl⟩ := shaped.carries_of_items shown
    exact (carries.reaches reached).2 y ref

/-- What holds at the start and passes from an object to what it refers to, holds
of everything reached but the segments. -/
theorem Shaped.reaches_induction (shaped : h.Shaped) {starts : List Handle} (apart : h.Unsegmented starts)
    {P : Handle → Prop} (start : ∀ x ∈ starts, P x)
    (step : ∀ x content, P x → h.content? x = some content → ∀ y ∈ content.refs, P y)
    (reached : h.arena.Reaches starts x) (element : h.Element x) : P x := by
  -- within a chain the property waits at the list that the segments belong to
  suffices both : (h.Element x → P x) ∧ ∀ s c, h.Carries s c → x ∈ c.map Prod.fst → P s from both.1 element
  clear element
  induction reached with
  | @start x member =>
    refine ⟨fun _ => start x member, fun s c carries inside => ?_⟩
    obtain ⟨r, segment⟩ := carries.linked.segment inside
    exact absurd segment (apart x member r)
  | @edge x y o _ found child ih =>
    have here : h.find? x = some o.payload := find?_eq_some_iff.2 ⟨o, found, rfl⟩
    constructor
    · intro element
      by_cases segment : o.payload.tag = .segment
      · generalize o.payload = p at here child segment
        cases p with
        | segment r =>
          obtain ⟨s, c, carries, inside⟩ := shaped.covered x r here
          rcases List.mem_append.1 child with held | link
          · exact step s _ (ih.2 s c carries inside) carries.content? y (carries.linked.items_mem inside here held)
          · obtain ⟨t, next⟩ := carries.linked.segment (carries.linked.next_mem inside here (t := y) (by simpa using link))
            exact absurd next (element.not_segment t)
        | _ => cases segment
      · have shown : h.Element x := ⟨_, here, segment⟩
        by_cases list : o.payload.tag = .seglist
        · generalize o.payload = p at here child list
          cases p with
          | seglist r =>
            obtain ⟨c, chained⟩ := shaped.chains x r here
            have head : y ∈ r.head := by simpa [Payload.children] using child
            rw [chained.head] at head
            obtain ⟨e, first, rfl⟩ := Option.map_eq_some_iff.1 head
            obtain ⟨t, next⟩ := chained.linked.segment (List.mem_map_of_mem (List.mem_of_mem_head? first))
            exact absurd next (element.not_segment t)
          | _ => cases list
        · refine step x _ (ih.1 shown) (content?_of_record here list segment) y ?_
          generalize o.payload = p at child list segment
          cases p with
          | seglist r => exact absurd rfl list
          | segment r => exact absurd rfl segment
          | _ => exact child
    · intro s c carries inside
      rcases shaped.edge_to_segment carries inside here child with rfl | within
      · obtain ⟨r, list, -⟩ := carries
        exact ih.1 ⟨_, list, by simp [Payload.tag]⟩
      · exact ih.2 s c carries within

/-! ### What changes do to contents -/

/-- An object shows the same when it holds the same up to a cursor, with the same chain. -/
theorem content?_congr (same : (g.find? x).map Payload.still = (h.find? x).map Payload.still)
    (chain : ∀ r, h.find? x = some (.seglist r) → ∃ c, h.Carries x c ∧ g.Carries x c) :
    g.content? x = h.content? x := by
  cases found : h.find? x with
  | none =>
    rw [found, Option.map_none, Option.map_eq_none_iff] at same
    rw [content?_of_none found, content?_of_none same]
  | some p =>
    rw [found, Option.map_some] at same
    obtain ⟨q, found', still⟩ := Option.map_eq_some_iff.1 same
    by_cases list : p.tag = .seglist
    · cases p with
      | seglist r =>
        obtain ⟨c, before, after⟩ := chain r found
        rw [before.content?, after.content?]
      | _ => cases list
    · obtain rfl := Payload.eq_of_still still list
      unfold content?
      rw [found, found']
      cases q with
      | seglist r => exact absurd rfl list
      | _ => rfl

theorem Shaped.content?_eq (shaped : h.Shaped) (same : g.find? x = h.find? x)
    (chain : ∀ c, h.Carries x c → g.Carries x c) : g.content? x = h.content? x := by
  refine content?_congr (by rw [same]) fun r found => ?_
  obtain ⟨c, chained⟩ := shaped.chains x r found
  exact ⟨c, ⟨r, found, chained⟩, chain c ⟨r, found, chained⟩⟩

/-- A list has the same chain where it holds the same up to the cursor, with the same segments. -/
theorem Shaped.carries_still {c : Chain} (shaped : g.Shaped) (carries : h.Carries x c)
    (alike : (g.find? x).map Payload.still = (h.find? x).map Payload.still)
    (segments : ∀ s ∈ c.map Prod.fst, g.find? s = h.find? s) : g.Carries x c := by
  obtain ⟨r, found, chained⟩ := carries
  rw [found, Option.map_some] at alike
  obtain ⟨q, found', still⟩ := Option.map_eq_some_iff.1 alike
  cases q with
  | seglist r' =>
    obtain ⟨d, chained'⟩ := shaped.chains x r' found'
    have linked : g.Linked none c := chained.linked.congr segments
    have heads : r'.head = r.head := by
      injection still with fields
      injection fields
    obtain rfl : d = c := chained'.linked.unique linked (by rw [← chained'.start, heads, chained.start])
    exact ⟨r', found', chained'⟩
  | _ => cases still

/-- Cursors are no part of a chain. -/
theorem Glanced.carries {c : Chain} (glanced : Glanced h g) (sound : h.Sound loose) (carries : h.Carries x c) :
    g.Carries x c := by
  refine (glanced.sound loose sound).toShaped.carries_still carries (glanced.payloads x) fun s member => ?_
  obtain ⟨t, segment⟩ := carries.linked.segment member
  rw [segment, glanced.find? segment (by simp [Payload.tag])]

/-- Cursors do not show. -/
theorem Glanced.content? (glanced : Glanced h g) (sound : h.Sound loose) (x : Handle) : g.content? x = h.content? x := by
  refine content?_congr (glanced.payloads x) fun r found => ?_
  obtain ⟨c, chained⟩ := sound.chains x r found
  exact ⟨c, ⟨r, found, chained⟩, glanced.carries sound ⟨r, found, chained⟩⟩

/-- The roots do not show. -/
theorem Shaped.content?_rerooted (shaped : h.Shaped) (roots : RootSet) (x : Handle) :
    { h with roots := roots }.content? x = h.content? x :=
  shaped.content?_eq rfl fun _ ⟨r, found, chained⟩ => ⟨r, found, chained.congr fun _ _ => rfl⟩

/-- A collection leaves what is reached. -/
theorem Swept.content? {pins : List Handle} (swept : Swept pins h g) (shaped : h.Shaped)
    (reached : h.arena.Reaches (h.collectionRoots pins) x) : g.content? x = h.content? x := by
  refine shaped.content?_eq (swept.find? shaped.accounted reached) fun c ⟨r, found, chained⟩ => ?_
  exact ⟨r, chained.swept found shaped.accounted reached swept⟩

/-- A collection brings nothing to light. -/
theorem Swept.of_content? {pins : List Handle} (swept : Swept pins h g) (shaped : h.Shaped)
    (shown : g.content? x = some content) : h.content? x = some content := by
  rcases swept with rfl | rfl
  · exact shown
  · have live : ∃ p, (h.collectWith pins).heap.find? x = some p := by
      cases content with
      | record p => exact ⟨p, (find?_of_record shown).1⟩
      | items xs => exact (segListItems_of_items shown).1.elim fun r found => ⟨_, found⟩
    obtain ⟨p, found⟩ := live
    have reached := ((find?_collectWith shaped.accounted.arena).1 found).2
    rw [← shown, Swept.content? (.inr rfl) shaped reached]

/-- Changing a chain changes what its list shows, and nothing else. -/
theorem Rechained.content? (changed : Rechained s c h g c') (shaped : h.Shaped) (carries : h.Carries s c) :
    g.content? = Function.update h.content? s (some (.items (c'.map Prod.snd).flatten)) := by
  funext x
  by_cases same : x = s
  · subst same
    rw [Function.update_self, changed.here.content?]
  · rw [Function.update_of_ne same]
    by_cases inside : x ∈ c.map Prod.fst
    · obtain ⟨r, segment⟩ := carries.linked.segment inside
      rw [content?_of_segment segment]
      by_cases still : x ∈ c'.map Prod.fst
      · obtain ⟨r', segment'⟩ := changed.here.linked.segment still
        exact content?_of_segment segment'
      · exact content?_of_none (changed.gone x inside still)
    · by_cases joined : x ∈ c'.map Prod.fst
      · obtain ⟨r', segment'⟩ := changed.here.linked.segment joined
        rw [content?_of_segment segment', content?_of_none (changed.fresh x joined inside)]
      · exact shaped.content?_eq (changed.frame x same inside joined) fun d carries' =>
          changed.carries_other shaped carries same carries'

/-- A new object shows, and all others show what they showed. -/
theorem Entered.content? (entered : Entered x p h g) (shaped : h.Shaped) (segment : p.tag ≠ .segment)
    (shows : content = .record p ∧ p.tag ≠ .seglist ∨ content = .items [] ∧ p = .seglist {}) :
    g.content? = Function.update h.content? x (some content) := by
  funext y
  by_cases same : y = x
  · subst same
    rw [Function.update_self]
    rcases shows with ⟨rfl, list⟩ | ⟨rfl, rfl⟩
    · exact content?_of_record entered.here list segment
    · exact Carries.content? (c := []) ⟨_, entered.here, trivial, List.nodup_nil, trivial, rfl, rfl, rfl, by simp⟩
  · rw [Function.update_of_ne same]
    refine shaped.content?_eq (entered.other same) fun c ⟨r, found, chained⟩ => ?_
    refine ⟨r, (entered.live found).2, chained.congr fun s member => ?_⟩
    obtain ⟨t, live⟩ := chained.linked.segment member
    rw [live, (entered.live live).2]

/-- Rewriting a record changes what it shows, and nothing else. -/
theorem Edited.content? (edited : Edited (· = x) h g) (shaped : h.Shaped) (found : h.find? x = some p)
    (written : g.find? x = some q) (tag : q.tag = p.tag) (list : p.tag ≠ .seglist) (segment : p.tag ≠ .segment) :
    g.content? = Function.update h.content? x (some (.record q)) := by
  funext y
  by_cases same : y = x
  · subst same
    rw [Function.update_self, content?_of_record written (tag ▸ list) (tag ▸ segment)]
  · rw [Function.update_of_ne same]
    refine shaped.content?_eq (edited.outside y same) fun c ⟨r, there, chained⟩ => ?_
    refine ⟨r, (edited.outside y same).trans there, chained.congr fun s member => edited.outside s ?_⟩
    rintro rfl
    obtain ⟨t, live⟩ := chained.linked.segment member
    rw [found] at live
    cases live
    exact segment rfl

/-! ### Changes of a part of the heap -/

/-- From `h` to `g` only objects of `S` show something else; besides, objects that
the roots did not lead to may be gone. -/
structure Altered (S : Handle → Prop) (h g : Heap) : Prop extends Upkeep h g where
  sound : g.Sound none
  old : ∀ x content, ¬ S x → g.content? x = some content → h.content? x = some content
  kept : ∀ x, ¬ S x → h.Rooted x → g.content? x = h.content? x

theorem Altered.mono {S T : Handle → Prop} (altered : Altered S h g) (wider : ∀ x, S x → T x) : Altered T h g :=
  { altered with
    old := fun x content outside => altered.old x content fun inside => outside (wider x inside)
    kept := fun x outside => altered.kept x fun inside => outside (wider x inside) }

theorem Glanced.altered (glanced : Glanced h g) (sound : h.Sound none) (S : Handle → Prop) : Altered S h g :=
  { glanced.toUpkeep with
    sound := glanced.sound none sound
    old := fun x _ _ shown => by rwa [← glanced.content? sound x]
    kept := fun x _ _ => glanced.content? sound x }

/-- A reading before a change is part of it. -/
theorem Altered.after {S : Handle → Prop} (altered : Altered S g k) (glanced : Glanced h g) (sound : h.Sound none) :
    Altered S h k :=
  { glanced.toUpkeep.trans altered.toUpkeep with
    sound := altered.sound
    old := fun x content outside shown => (glanced.content? sound x).symm.trans (altered.old x content outside shown)
    kept := fun x outside rooted => (altered.kept x outside (glanced.rooted_iff.2 rooted)).trans (glanced.content? sound x) }

theorem Swept.altered {pins : List Handle} (swept : Swept pins h g) (sound : h.Sound none)
    (elements : ∀ x ∈ pins, h.Element x) (S : Handle → Prop) : Altered S h g :=
  { swept.upkeep sound.accounted with
    sound := sound.swept elements swept
    old := fun _ _ _ shown => swept.of_content? sound.toShaped shown
    kept := fun _ _ rooted => swept.content? sound.toShaped (rooted.collected pins) }

end Heap

end ChunkHeap

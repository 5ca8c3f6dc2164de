import ChunkHeap.Proofs.Likeness.Mirrors

/-!
# Segments of heaps that mirror each other

A pairing covers no segments, since they come and go within one operation. But the
blocks of a segmented list are fixed by its contents (`Packed.eq_map`), so two lists
that are partners have chains of the same shape, and their segments correspond by
position. `Pairing.Spread` adds these pairs. It is one to one, between all that the
roots lead to on both sides (`Mirrors.spread_rooted`, `Mirrors.exists_spread`), and a
map that follows it sends every payload to the payload of the partner
(`Mirrors.spread_payload`).
-/

namespace ChunkHeap
set_option autoImplicit false

/-! ### Blocks -/

/-- The first block is the first stretch of the contents. -/
theorem Packed.cons_eq {b : List Handle} {rest : List (List Handle)} (packed : Packed (b :: rest)) :
    b ≠ [] ∧ b = (b :: rest).flatten.take segmentCapacity ∧ rest.flatten = (b :: rest).flatten.drop segmentCapacity ∧
      Packed rest := by
  cases rest with
  | nil =>
    obtain ⟨some_, most⟩ := packed
    refine ⟨List.ne_nil_of_length_pos some_, ?_, ?_, trivial⟩
    · simp [List.take_of_length_le most]
    · simp [List.drop_eq_nil_of_le most]
  | cons c rest =>
    obtain ⟨full, packed⟩ := packed
    refine ⟨List.ne_nil_of_length_pos (by rw [full]; decide), ?_, ?_, packed⟩
    · rw [List.flatten_cons, ← full, List.take_left]
    · rw [List.flatten_cons (l := b), ← full, List.drop_left]

/-- The contents fix the blocks. -/
theorem Packed.eq_map {as bs : List (List Handle)} {f : Handle → Handle} (packed : Packed as) (packed' : Packed bs)
    (same : bs.flatten = as.flatten.map f) : bs = as.map (List.map f) := by
  induction as generalizing bs with
  | nil =>
    cases bs with
    | nil => rfl
    | cons b rest =>
      have empty : b = [] := (List.append_eq_nil_iff.1 same).1
      exact absurd empty packed'.cons_eq.1
  | cons a rest ih =>
    obtain ⟨some_, first, others, later⟩ := packed.cons_eq
    cases bs with
    | nil =>
      have empty : a.map f = [] := (List.append_eq_nil_iff.1 ((List.map_append ..).symm.trans same.symm)).1
      exact absurd (List.map_eq_nil_iff.1 empty) some_
    | cons b tail =>
      obtain ⟨-, first', others', later'⟩ := packed'.cons_eq
      have head : b = a.map f := by rw [first', same, ← List.map_take, ← first]
      have onward : tail.flatten = rest.flatten.map f := by rw [others', same, ← List.map_drop, ← others]
      rw [head, ih later later' onward, List.map_cons]

namespace Heap

variable {h : Heap} {x y : Handle}

/-- What the roots lead to is a segment of a list that they lead to, or is none. -/
theorem Sound.rooted_cases (sound : h.Sound none) (rooted : h.Rooted x) :
    h.Element x ∨ ∃ s c, h.Anchored s ∧ h.Carries s c ∧ x ∈ c.map Prod.fst := by
  have start : ∀ y ∈ h.collectionRoots [], ∃ p, h.find? y = some p := fun y root =>
    (sound.roots y root).imp fun _ facts => facts.1
  obtain ⟨p, found⟩ := sound.live_of_reaches start rooted
  by_cases segment : p.tag = .segment
  · cases p with
    | segment r =>
      obtain ⟨s, c, carries, member⟩ := sound.covered x r found
      obtain ⟨q, list, -⟩ := id carries
      exact .inr ⟨s, c, ⟨sound.owner_reached sound.unsegmented rooted carries member, _, list, by simp [Payload.tag]⟩,
        carries, member⟩
    | _ => cases segment
  · exact .inl ⟨p, found, segment⟩

end Heap

namespace Pairing

open Heap

variable {φ : Pairing} {h g : Heap} {x y s : Handle} {c c' : Chain} {p : Payload} {f : Handle → Handle}

/-- Partners, with the segments of paired lists by their positions. -/
inductive Spread (φ : Pairing) (h g : Heap) : Handle → Handle → Prop
  | element {x : Handle} (covered : φ.covers x) : Spread φ h g x (φ.partner x)
  | segment {s x y : Handle} {c c' : Chain} {n : Nat} (covered : φ.covers s) (carries : h.Carries s c)
    (carries' : g.Carries (φ.partner s) c') (here : (c.map Prod.fst)[n]? = some x)
    (there : (c'.map Prod.fst)[n]? = some y) : Spread φ h g x y

namespace Mirrors

/-- Partners among the lists have chains with corresponding blocks. -/
theorem exists_chain (mirrors : φ.Mirrors h g) (covered : φ.covers s) (carries : h.Carries s c) :
    ∃ c', g.Carries (φ.partner s) c' ∧ c'.map Prod.snd = (c.map Prod.snd).map (List.map φ.partner) := by
  obtain ⟨c', carries', same⟩ :=
    mirrors.sound'.toShaped.carries_of_items (mirrors.content? covered carries.content?).1
  obtain ⟨_, -, chained⟩ := carries
  obtain ⟨_, -, chained'⟩ := id carries'
  exact ⟨c', carries', chained.packed.eq_map chained'.packed same⟩

theorem chain_blocks (mirrors : φ.Mirrors h g) (covered : φ.covers s) (carries : h.Carries s c)
    (carries' : g.Carries (φ.partner s) c') : c'.map Prod.snd = (c.map Prod.snd).map (List.map φ.partner) := by
  obtain ⟨d, other, same⟩ := mirrors.exists_chain covered carries
  rwa [other.unique carries'] at same

theorem chain_length (mirrors : φ.Mirrors h g) (covered : φ.covers s) (carries : h.Carries s c)
    (carries' : g.Carries (φ.partner s) c') : c'.length = c.length := by
  simpa using congrArg List.length (mirrors.chain_blocks covered carries carries')

/-! ### One to one -/

theorem spread_unique {y' : Handle} (mirrors : φ.Mirrors h g) (left : φ.Spread h g x y) (right : φ.Spread h g x y') :
    y = y' := by
  have apart : ∀ {s c} {n : Nat}, φ.covers x → h.Carries s c → (c.map Prod.fst)[n]? = some x → False := by
    intro s c n covered carries here
    obtain ⟨r, segment⟩ := carries.linked.segment (List.mem_of_getElem? here)
    exact (mirrors.element covered).1.not_segment r segment
  cases left with
  | element covered =>
    cases right with
    | element => rfl
    | segment _ carries _ here _ => exact (apart covered carries here).elim
  | @segment s _ _ c c' n _ carries carries' here there =>
    cases right with
    | element covered => exact (apart covered carries here).elim
    | @segment t _ _ d d' k _ other other' here' there' =>
      obtain rfl := mirrors.sound.same_list carries other (List.mem_of_getElem? here) (List.mem_of_getElem? here')
      obtain rfl := carries.unique other
      obtain rfl := carries'.unique other'
      obtain ⟨_, -, chained⟩ := carries
      obtain ⟨inside, -⟩ := List.getElem?_eq_some_iff.1 here
      obtain rfl := (List.getElem?_inj inside chained.distinct).1 (here.trans here'.symm)
      exact Option.some.inj (there.symm.trans there')

theorem spread_injective {x' : Handle} (mirrors : φ.Mirrors h g) (left : φ.Spread h g x y)
    (right : φ.Spread h g x' y) : x = x' := by
  have apart : ∀ {z s c} {n : Nat}, φ.covers z → g.Carries s c → (c.map Prod.fst)[n]? = some (φ.partner z) → False := by
    intro z s c n covered carries there
    obtain ⟨r, segment⟩ := carries.linked.segment (List.mem_of_getElem? there)
    exact (mirrors.element covered).2.not_segment r segment
  cases left with
  | element covered =>
    generalize same : φ.partner x = y at right
    cases right with
    | element covered' => exact mirrors.injective x x' covered covered' same
    | segment _ _ carries' _ there => exact (apart covered carries' (same ▸ there)).elim
  | @segment s _ _ c c' n covered carries carries' here there =>
    cases right with
    | element covered => exact (apart covered carries' there).elim
    | @segment t _ _ d d' k covered' other other' here' there' =>
      have lists := mirrors.sound'.same_list carries' other' (List.mem_of_getElem? there) (List.mem_of_getElem? there')
      obtain rfl := mirrors.injective s t covered covered' lists
      obtain rfl := carries.unique other
      obtain rfl := carries'.unique other'
      obtain ⟨_, -, chained⟩ := carries'
      obtain ⟨inside, -⟩ := List.getElem?_eq_some_iff.1 there
      obtain rfl := (List.getElem?_inj inside chained.distinct).1 (there.trans there'.symm)
      exact Option.some.inj (here.symm.trans here')

/-- Some map gives every object its partner. -/
theorem exists_following (mirrors : φ.Mirrors h g) :
    ∃ f : Handle → Handle, ∀ x y, φ.Spread h g x y → f x = y := by
  classical
  refine ⟨fun x => if paired : ∃ y, φ.Spread h g x y then paired.choose else x, fun x y pair => ?_⟩
  have paired : ∃ y, φ.Spread h g x y := ⟨y, pair⟩
  simp only [dif_pos paired]
  exact mirrors.spread_unique paired.choose_spec pair

/-! ### All that the roots lead to -/

theorem spread_rooted (mirrors : φ.Mirrors h g) (rooted : h.Rooted x) : ∃ y, φ.Spread h g x y ∧ g.Rooted y := by
  rcases mirrors.sound.rooted_cases rooted with element | ⟨s, c, anchored, carries, member⟩
  · obtain ⟨covered, rooted'⟩ := mirrors.rooted ⟨rooted, element⟩
    exact ⟨_, .element covered, rooted'⟩
  · obtain ⟨covered, rooted'⟩ := mirrors.rooted anchored
    obtain ⟨c', carries', blocks⟩ := mirrors.exists_chain covered carries
    obtain ⟨n, here⟩ := List.mem_iff_getElem?.1 member
    have inside : n < (c'.map Prod.fst).length := by
      have := (List.getElem?_eq_some_iff.1 here).1
      simpa [mirrors.chain_length covered carries carries'] using this
    exact ⟨_, .segment covered carries carries' here (List.getElem?_eq_getElem inside),
      (carries'.reaches rooted').1 _ (List.getElem_mem inside)⟩

theorem exists_spread (mirrors : φ.Mirrors h g) (rooted : g.Rooted y) : ∃ x, φ.Spread h g x y ∧ h.Rooted x := by
  rcases mirrors.sound'.rooted_cases rooted with element | ⟨t, c', anchored, carries', member⟩
  · obtain ⟨x, covered, rooted', rfl⟩ := mirrors.exists_of_rooted ⟨rooted, element⟩
    exact ⟨x, .element covered, rooted'⟩
  · obtain ⟨s, covered, rooted', rfl⟩ := mirrors.exists_of_rooted anchored
    obtain ⟨content, shown, there, -⟩ := mirrors.shown s covered
    cases content with
    | record p =>
      -- the partner of a record is no list
      rw [carries'.content?] at there
      cases there
    | items xs =>
      obtain ⟨c, carries, -⟩ := mirrors.sound.toShaped.carries_of_items shown
      obtain ⟨n, here⟩ := List.mem_iff_getElem?.1 member
      have inside : n < (c.map Prod.fst).length := by
        have := (List.getElem?_eq_some_iff.1 here).1
        simpa [mirrors.chain_length covered carries carries'] using this
      exact ⟨_, .segment covered carries carries' (List.getElem?_eq_getElem inside) here,
        (carries.reaches rooted').1 _ (List.getElem_mem inside)⟩

/-! ### Payloads -/

/-- A map that follows the pairs takes a chain to the chain of the partner. -/
theorem chain_map (mirrors : φ.Mirrors h g) (follows : ∀ x y, φ.Spread h g x y → f x = y) (covered : φ.covers s)
    (carries : h.Carries s c) (carries' : g.Carries (φ.partner s) c') : c' = c.map (Prod.map f (List.map f)) := by
  have segments : c'.map Prod.fst = (c.map Prod.fst).map f := by
    refine List.ext_getElem (by simpa using mirrors.chain_length covered carries carries') fun n there here => ?_
    rw [List.length_map] at here
    rw [List.getElem_map (f := f)]
    exact (follows _ _ (.segment covered carries carries' (List.getElem?_eq_getElem here)
      (List.getElem?_eq_getElem there))).symm
  have blocks : c'.map Prod.snd = (c.map Prod.snd).map (List.map f) := by
    rw [mirrors.chain_blocks covered carries carries']
    refine List.map_congr_left fun items block => List.map_congr_left fun y held => ?_
    have item := (mirrors.content? covered carries.content?).2 y (List.mem_flatten.2 ⟨items, block, held⟩)
    exact (follows _ _ (.element item)).symm
  refine (List.zip_of_prod segments blocks).trans (List.zip_of_prod ?_ ?_).symm
  · rw [List.map_map, List.map_map]
    rfl
  · rw [List.map_map, List.map_map]
    rfl

/-- A map that follows the pairs takes every payload to that of the partner, up to
cursors. -/
theorem spread_payload (mirrors : φ.Mirrors h g) (follows : ∀ x y, φ.Spread h g x y → f x = y)
    (pair : φ.Spread h g x y) (found : h.find? x = some p) :
    ∃ q, g.find? y = some q ∧ q.still = (p.map f).still := by
  cases pair with
  | element covered =>
    obtain ⟨content, shown, there, refs⟩ := mirrors.shown x covered
    have follow : ∀ y ∈ content.refs, φ.partner y = f y := fun y ref => (follows _ _ (.element (refs y ref))).symm
    cases content with
    | record q =>
      obtain ⟨here, -⟩ := find?_of_record shown
      rw [found] at here
      cases here
      refine ⟨p.map φ.partner, (find?_of_record there).1, ?_⟩
      have same := content?_map_congr shown follow
      exact congrArg Payload.still (Content.record.inj same)
    | items xs =>
      obtain ⟨c, carries, -⟩ := mirrors.sound.toShaped.carries_of_items shown
      obtain ⟨c', carries', -⟩ := mirrors.exists_chain covered carries
      obtain rfl := mirrors.chain_map follows covered carries carries'
      obtain ⟨r, list, chained⟩ := carries
      obtain ⟨r', list', chained'⟩ := carries'
      rw [found] at list
      cases list
      refine ⟨_, list', ?_⟩
      -- the chains correspond segment by segment, so the records agree up to the cursor
      have head : r'.head = r.head.map f := by
        rw [chained'.head, chained.head]
        cases c <;> rfl
      have tail : r'.tail = r.tail.map f := by
        rw [chained'.tail, chained.tail, List.getLast?_map, Option.map_map, Option.map_map]
        rfl
      have length : r'.length = r.length := by
        rw [chained'.length, chained.length]
        simp [List.map_map, Function.comp_def]
      simp only [Payload.still, Payload.map, head, tail, length]
  | @segment s _ _ c c' n covered carries carries' here there =>
    obtain rfl := mirrors.chain_map follows covered carries carries'
    rw [List.getElem?_map] at here there
    obtain ⟨⟨t, items⟩, place, rfl⟩ := Option.map_eq_some_iff.1 here
    have place' : (c.map (Prod.map f (List.map f)))[n]? = some (f t, items.map f) := by
      rw [List.getElem?_map, place]
      rfl
    rw [place'] at there
    cases there
    have before := carries.linked.getElem place
    have after := carries'.linked.getElem place'
    rw [found] at before
    cases before
    refine ⟨_, after, ?_⟩
    rw [List.getElem?_map, Option.map_map]
    simp only [Payload.still, Payload.map, Option.map_map]
    rfl

end Mirrors

end Pairing

end ChunkHeap

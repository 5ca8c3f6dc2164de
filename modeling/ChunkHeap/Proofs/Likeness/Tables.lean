import ChunkHeap.Proofs.Likeness.Lists

/-!
# Tables and plain objects in heaps that mirror each other

Calls on a table and on its partner agree: what a call does to the entries depends on
comparisons only, and partners compare alike. Integers, texts, tuples and slices take one
allocation each.
-/

namespace ChunkHeap
set_option autoImplicit false

open HeapM Heap

/-- The call on other operands. -/
def TableCall.map (f : Handle → Handle) : TableCall → TableCall
  | set key value => set (f key) (f value)
  | erase key => erase (f key)
  | clear => clear

theorem TableCall.isSegmental_onHeap (call : TableCall) (d : Handle) : IsSegmental (call.onHeap d) := by
  cases call with
  | set key value => exact DictObject.isSegmental_set d key value
  | erase key => exact DictObject.isSegmental_erase d key
  | clear => exact DictObject.isSegmental_clear d

/-- Replacing a value among other names. -/
theorem DictObject.map_modify (f : Handle → Handle) (E : List (Handle × Handle)) (i : Nat) (value : Handle) :
    (E.modify i fun e => (e.1, value)).map (Prod.map f f) = (E.map (Prod.map f f)).modify i fun e => (e.1, f value) := by
  induction E generalizing i with
  | nil => simp
  | cons e E ih => cases i <;> simp [ih]

theorem DictObject.mem_modify {E : List (Handle × Handle)} {i : Nat} {value : Handle} {e : Handle × Handle}
    (member : e ∈ E.modify i fun e => (e.1, value)) : e ∈ E ∨ ∃ old ∈ E, e = (old.1, value) := by
  induction E generalizing i with
  | nil => simp at member
  | cons first E ih =>
    cases i with
    | zero =>
      rw [List.modify_zero_cons, List.mem_cons] at member
      exact member.symm.imp (List.mem_cons_of_mem first) fun same => ⟨first, List.mem_cons_self, same⟩
    | succ i =>
      rw [List.modify_succ_cons, List.mem_cons] at member
      rcases member with rfl | member
      · exact .inl List.mem_cons_self
      · exact (ih member).imp (List.mem_cons_of_mem first) fun ⟨old, inside, same⟩ => ⟨old, List.mem_cons_of_mem first inside, same⟩

namespace Pairing

variable {φ origin : Pairing} {h g h' g' : Heap} {m m' : Machine} {x d ks vs key value : Handle}
  {E F : List (Handle × Handle)} {call : TableCall}

/-! ### Updates of tables -/

/-- Every key and every value is covered. -/
def CoversEntries (φ : Pairing) (E : List (Handle × Handle)) : Prop :=
  ∀ e ∈ E, φ.covers e.1 ∧ φ.covers e.2

theorem Mirrors.parts (mirrors : φ.Mirrors h g) (table : φ.covers d) (keys : φ.covers ks) (vals : φ.covers vs)
    (covered : φ.covers x) :
    DictObject.Parts d ks vs x ↔ DictObject.Parts (φ.partner d) (φ.partner ks) (φ.partner vs) (φ.partner x) := by
  have same : ∀ {y}, φ.covers y → (x = y ↔ φ.partner x = φ.partner y) := fun {y} covered' =>
    ⟨congrArg φ.partner, mirrors.injective x y covered covered'⟩
  exact or_congr (same table) (or_congr (same keys) (same vals))

/-- The same update of a table and of its partner. -/
theorem Mirrors.entries_updated (mirrors : φ.Mirrors h g) (table : φ.covers d) (has : h.HasEntries d ks vs E)
    (left : Altered (DictObject.Parts d ks vs) h h')
    (right : Altered (DictObject.Parts (φ.partner d) (φ.partner ks) (φ.partner vs)) g g') (after : h'.HasEntries d ks vs F)
    (after' : g'.HasEntries (φ.partner d) (φ.partner ks) (φ.partner vs) (F.map (Prod.map φ.partner φ.partner)))
    (entries : φ.CoversEntries F) : (φ.within h' g').Mirrors h' g' := by
  obtain ⟨-, keys, vals, -⟩ := mirrors.hasEntries table has
  refine mirrors.altered left right (fun x covered => mirrors.parts table keys vals covered) ?_
  rintro x - (rfl | rfl | rfl)
  · refine ⟨_, after.record, after'.record.trans ?_, ?_⟩
    · rw [List.length_map]
      rfl
    · intro y ref
      rcases List.mem_pair.1 ref with rfl | rfl
      · exact keys
      · exact vals
  · refine ⟨_, after.keys, after'.keys.trans ?_, ?_⟩
    · simp [Content.map, Function.comp_def]
    · intro y ref
      obtain ⟨e, member, rfl⟩ := List.mem_map.1 ref
      exact (entries e member).1
  · refine ⟨_, after.vals, after'.vals.trans ?_, ?_⟩
    · simp [Content.map, Function.comp_def]
    · intro y ref
      obtain ⟨e, member, rfl⟩ := List.mem_map.1 ref
      exact (entries e member).2

/-- A search among the keys goes as the search among their partners. -/
theorem Mirrors.searchKeys (mirrors : φ.Mirrors h g) (covered : φ.covers key) (entries : φ.CoversEntries E) :
    ChunkHeap.search (g.sameAs (φ.partner key)) ((E.map (Prod.map φ.partner φ.partner)).map Prod.fst) =
      ChunkHeap.search (h.sameAs key) (E.map Prod.fst) := by
  have same : (E.map (Prod.map φ.partner φ.partner)).map Prod.fst = (E.map Prod.fst).map φ.partner := by
    simp [Function.comp_def]
  rw [same]
  refine mirrors.search covered fun y member => ?_
  obtain ⟨e, inside, rfl⟩ := List.mem_map.1 member
  exact (entries e inside).1

/-- What a call does to the entries, it does to their partners. -/
theorem Mirrors.onEntries (mirrors : φ.Mirrors h g) (operands : ∀ x ∈ call.operands, φ.covers x) (entries : φ.CoversEntries E) :
    (call.map φ.partner).onEntries g.sameAs (E.map (Prod.map φ.partner φ.partner)) =
      (call.onEntries h.sameAs E).map (List.map (Prod.map φ.partner φ.partner)) := by
  cases call with
  | set key value =>
    rw [TableCall.map, TableCall.onEntries, TableCall.onEntries, mirrors.searchKeys (operands key (by simp [TableCall.operands])) entries]
    cases ChunkHeap.search (h.sameAs key) (E.map Prod.fst) with
    | error e => rfl
    | ok found =>
      cases found with
      | none => simp [bind, Except.bind, Except.map]
      | some i => simp [bind, Except.bind, Except.map, DictObject.map_modify]
  | erase key =>
    rw [TableCall.map, TableCall.onEntries, TableCall.onEntries, mirrors.searchKeys (operands key (by simp [TableCall.operands])) entries]
    cases ChunkHeap.search (h.sameAs key) (E.map Prod.fst) with
    | error e => rfl
    | ok found =>
      cases found with
      | none => rfl
      | some i => simp [bind, Except.bind, Except.map, List.eraseIdx_map]
  | clear => rfl

/-- A call stores nothing but what it was given. -/
theorem coversEntries_of_onEntries {same : Handle → Handle → Except Error Bool} (operands : ∀ x ∈ call.operands, φ.covers x)
    (entries : φ.CoversEntries E) (effect : call.onEntries same E = .ok F) : φ.CoversEntries F := by
  cases call with
  | set key value =>
    obtain ⟨found, -, effect⟩ := except_bind_ok effect
    have value_covered := operands value (by simp [TableCall.operands])
    cases found with
    | none =>
      cases effect
      intro e member
      rcases List.mem_append.1 member with old | new
      · exact entries e old
      · rw [List.mem_singleton.1 new]
        exact ⟨operands key (by simp [TableCall.operands]), value_covered⟩
    | some i =>
      cases effect
      intro e member
      rcases DictObject.mem_modify member with old | ⟨old, inside, rfl⟩
      · exact entries e old
      · exact ⟨(entries old inside).1, value_covered⟩
  | erase key =>
    obtain ⟨found, -, effect⟩ := except_bind_ok effect
    cases found with
    | none => cases effect
    | some i =>
      cases effect
      exact fun e member => entries e (List.mem_of_mem_eraseIdx member)
  | clear =>
    cases effect
    exact List.forall_mem_nil _

/-- What is not a table fails alike. -/
theorem Mirrors.dict_cases (mirrors : φ.Mirrors h g) (table : φ.covers d) :
    (∃ e, h.dictRecord d = .error e ∧ g.dictRecord (φ.partner d) = .error e) ∨ ∃ ks vs E, h.HasEntries d ks vs E := by
  cases record : h.dictRecord d with
  | error e =>
    refine .inl ⟨e, rfl, ?_⟩
    rw [mirrors.dictRecord table, record]
    rfl
  | ok r =>
    obtain ⟨E, has⟩ := mirrors.sound.hasEntries (dictRecord_eq_ok_iff.1 record)
    exact .inr ⟨_, _, E, has⟩

/-- A call that stores in a table, removes from it or empties it. -/
theorem agree_tableCall (call : TableCall) (mirrors : φ.Mirrors m.heap m'.heap) (table : φ.covers d) (rooted : m.heap.Rooted d)
    (operands : ∀ x ∈ call.operands, φ.covers x) :
    φ.Agree m m' (fun _ _ _ _ _ => True) ((call.onHeap d).run m) (((call.map φ.partner).onHeap (φ.partner d)).run m') := by
  rcases mirrors.dict_cases table with ⟨e, error, error'⟩ | ⟨ks, vs, E, has⟩
  · cases call with
    | set | erase | clear => exact agree_inspect_error mirrors error error'
  obtain ⟨has', keys, vals, entries⟩ := mirrors.hasEntries table has
  have live' : ∀ y ∈ (call.map φ.partner).operands, m'.heap.Element y := by
    have mapped : (call.map φ.partner).operands = call.operands.map φ.partner := by cases call <;> rfl
    intro y member
    rw [mapped] at member
    obtain ⟨x, operand, rfl⟩ := List.mem_map.1 member
    exact (mirrors.element (operands x operand)).2
  obtain ⟨F, refines⟩ := TableCall.exists_refines call mirrors.sound rooted has fun x operand => (mirrors.element (operands x operand)).1
  obtain ⟨F', refines'⟩ := TableCall.exists_refines (call.map φ.partner) mirrors.sound'
    (mirrors.anchored_partner table rooted).1 has' live'
  have same := mirrors.onEntries operands entries
  obtain ⟨outcome, after, altered⟩ := refines
  obtain ⟨outcome', after', altered'⟩ := refines'
  have grown := call.isSegmental_onHeap d m
  have grown' := (call.map φ.partner).isSegmental_onHeap (φ.partner d) m'
  generalize (call.onHeap d).run m = result at outcome after altered grown
  generalize ((call.map φ.partner).onHeap (φ.partner d)).run m' = result' at outcome' after' altered' grown'
  have continues : φ.Continues (φ.within result.2.heap result'.2.heap) m m' result.2 result'.2 :=
    continues_within grown grown' mirrors.sound.accounted mirrors.sound'.accounted
  cases outcome with
  | noRoom adds memory full => exact .exhausted memory
  | refused effect =>
    rw [effect] at same
    cases outcome' with
    | noRoom adds memory full => exact .exhausted' memory
    | refused effect' =>
      rw [effect'] at same
      cases same
      exact .failed (mirrors.entries_updated table has altered altered' after after' entries) continues
    | done effect' =>
      rw [effect'] at same
      cases same
  | done effect =>
    rw [effect] at same
    cases outcome' with
    | noRoom adds memory full => exact .exhausted' memory
    | refused effect' =>
      rw [effect'] at same
      cases same
    | done effect' =>
      rw [effect'] at same
      cases same
      exact .done (mirrors.entries_updated table has altered altered' after after'
        (coversEntries_of_onEntries operands entries effect)) continues trivial

/-! ### Looking up -/

/-- The record of a table. -/
theorem agree_dictRecord (mirrors : φ.Mirrors m.heap m'.heap) (table : φ.covers d) :
    φ.Agree m m' (fun r r' ψ _ _ => ψ = φ ∧ r' = ⟨r.length, φ.partner r.keys, φ.partner r.vals⟩ ∧ φ.covers r.keys ∧ φ.covers r.vals)
      ((inspect fun h => h.dictRecord d).run m) ((inspect fun h => h.dictRecord (φ.partner d)).run m') := by
  refine agree_inspect _ mirrors (mirrors.dictRecord table) fun r read => ⟨rfl, rfl, ?_, ?_⟩
  · exact mirrors.covers_ref table (dictRecord_eq_ok_iff.1 read) (by simp [Payload.refs, Payload.children])
  · exact mirrors.covers_ref table (dictRecord_eq_ok_iff.1 read) (by simp [Payload.refs, Payload.children])

/-- A scan of the keys with tests that agree. -/
theorem agree_findFrom {test test' : Heap → Handle → Except Error Bool}
    (tests : ∀ (ψ : Pairing) (k k' : Heap) (x : Handle), ψ.Mirrors k k' → origin.Keeps ψ → ψ.covers x →
      test' k' (ψ.partner x) = test k x)
    (mirrors : φ.Mirrors m.heap m'.heap) (kept : origin.Keeps φ) (keys : φ.covers ks) (count i : Nat) :
    φ.Agree m m' (fun found found' φ' _ _ => found' = found ∧ origin.Keeps φ' ∧ φ.Keeps φ')
      ((DictObject.findFrom ks test count i).run m) ((DictObject.findFrom (φ.partner ks) test' count i).run m') := by
  induction count generalizing φ m m' i with
  | zero => exact agree_pure mirrors ⟨rfl, kept, .refl φ⟩
  | succ count ih =>
    refine (agree_segListGet mirrors keys i).bind fun x x' φ₁ m₁ m₂ mirrored ⟨covered, partner, _, still⟩ => ?_
    subst partner
    have tested : φ₁.Agree m₁ m₂ (fun passed passed' ψ _ _ => passed' = passed ∧ ψ = φ₁) ((inspect fun h => test h x).run m₁)
        ((inspect fun h => test' h (φ₁.partner x)).run m₂) := by
      refine agree_inspect id mirrored ?_ fun _ _ => ⟨rfl, rfl⟩
      rw [tests φ₁ m₁.heap m₂.heap x mirrored (kept.trans still) covered]
      cases test m₁.heap x <;> rfl
    refine tested.bind fun passed passed' φ₂ m₃ m₄ mirrored' ⟨same, pairing⟩ => ?_
    subst same pairing
    cases passed' with
    | true => exact agree_pure mirrored' ⟨rfl, kept.trans still, still⟩
    | false =>
      obtain ⟨keys', partner⟩ := still ks keys
      rw [← partner]
      exact (ih mirrored' (kept.trans still) keys' (i + 1)).mono fun _ _ _ _ _ _ ⟨same, early, late⟩ =>
        ⟨same, early, still.trans late⟩

/-- The value at the position that a scan has come to. -/
theorem agree_valueAt {r : DictRecord} (mirrors : φ.Mirrors m.heap m'.heap) (vals : φ.covers r.vals) (found : Option Nat) :
    φ.Agree m m' (fun found found' φ' _ _ => (∀ x ∈ found, φ'.covers x) ∧ found' = found.map φ'.partner)
      ((DictObject.valueAt r found).run m)
      ((DictObject.valueAt ⟨r.length, φ.partner r.keys, φ.partner r.vals⟩ found).run m') := by
  cases found with
  | none => exact agree_pure mirrors ⟨fun _ member => (by cases member), rfl⟩
  | some i =>
    rw [DictObject.valueAt, DictObject.valueAt, map_eq_pure_bind, map_eq_pure_bind]
    refine (agree_segListGet mirrors vals i).bind fun x x' φ₁ m₁ m₂ mirrored got => ?_
    obtain ⟨covered, partner, -⟩ := got
    refine agree_pure mirrored ⟨fun y same => ?_, by rw [Option.map_some, partner]⟩
    cases same
    exact covered

/-- A scan and the value it comes to. -/
theorem agree_scan {test test' : Heap → Handle → Except Error Bool}
    (tests : ∀ (ψ : Pairing) (k k' : Heap) (x : Handle), ψ.Mirrors k k' → φ.Keeps ψ → ψ.covers x →
      test' k' (ψ.partner x) = test k x)
    (mirrors : φ.Mirrors m.heap m'.heap) (table : φ.covers d) :
    φ.Agree m m' (fun found found' φ' _ _ => (∀ x ∈ found, φ'.covers x) ∧ found' = found.map φ'.partner)
      ((do
        let r ← inspect fun h => h.dictRecord d
        let found ← DictObject.findFrom r.keys test r.length 0
        DictObject.valueAt r found).run m)
      ((do
        let r ← inspect fun h => h.dictRecord (φ.partner d)
        let found ← DictObject.findFrom r.keys test' r.length 0
        DictObject.valueAt r found).run m') := by
  refine (agree_dictRecord mirrors table).bind fun r r' φ₁ m₁ m₂ mirrored ⟨pairing, record, keys, vals⟩ => ?_
  subst pairing record
  refine (agree_findFrom tests mirrored (.refl _) keys r.length 0).bind
    fun found found' φ₂ m₃ m₄ mirrored' ⟨same, _, kept⟩ => ?_
  subst same
  rw [← (kept _ keys).2, ← (kept _ vals).2]
  exact agree_valueAt mirrored' (kept _ vals).1 found'

theorem agree_lookup (mirrors : φ.Mirrors m.heap m'.heap) (table : φ.covers d) (covered : φ.covers key) :
    φ.Agree m m' (fun found found' φ' _ _ => (∀ x ∈ found, φ'.covers x) ∧ found' = found.map φ'.partner)
      ((DictObject.lookup d key).run m) ((DictObject.lookup (φ.partner d) (φ.partner key)).run m') := by
  refine agree_scan (fun ψ k k' x mirrored kept inside => ?_) mirrors table
  obtain ⟨covered', partner⟩ := kept key covered
  rw [← partner, mirrored.compare inside covered']

theorem agree_lookupText (mirrors : φ.Mirrors m.heap m'.heap) (table : φ.covers d) (text : String) :
    φ.Agree m m' (fun found found' φ' _ _ => (∀ x ∈ found, φ'.covers x) ∧ found' = found.map φ'.partner)
      ((DictObject.lookupText d text).run m) ((DictObject.lookupText (φ.partner d) text).run m') :=
  agree_scan (fun _ _ _ _ mirrored _ inside => mirrored.strEquals inside text) mirrors table

theorem agree_dictGet (mirrors : φ.Mirrors m.heap m'.heap) (table : φ.covers d) (covered : φ.covers key) :
    φ.Agree m m' (fun x x' φ' _ _ => φ'.covers x ∧ φ'.partner x = x')
      ((DictObject.get d key).run m) ((DictObject.get (φ.partner d) (φ.partner key)).run m') := by
  refine (agree_lookup mirrors table covered).bind fun found found' φ₁ m₁ m₂ mirrored ⟨inside, same⟩ => ?_
  subst same
  cases found with
  | none => exact agree_throw _ mirrored
  | some x => exact agree_pure mirrored ⟨inside x rfl, rfl⟩

theorem agree_entry (mirrors : φ.Mirrors m.heap m'.heap) (table : φ.covers d) (index : Nat) :
    φ.Agree m m' (fun e e' φ' _ _ => φ'.covers e.1 ∧ φ'.covers e.2 ∧ e' = (φ'.partner e.1, φ'.partner e.2))
      ((DictObject.entry d index).run m) ((DictObject.entry (φ.partner d) index).run m') := by
  refine (agree_dictRecord mirrors table).bind fun r r' φ₁ m₁ m₂ mirrored ⟨pairing, record, keys, vals⟩ => ?_
  subst pairing record
  dsimp only
  split
  · refine (agree_segListGet mirrored keys index).bind fun k k' φ₂ m₃ m₄ mirrored' ⟨first, partner, _, kept⟩ => ?_
    rw [← (kept _ vals).2]
    refine (agree_segListGet mirrored' (kept _ vals).1 index).bind fun v v' φ₃ m₅ m₆ mirrored'' ⟨second, partner', _, kept'⟩ => ?_
    obtain ⟨first', same⟩ := kept' k first
    exact agree_pure mirrored'' ⟨first', second, by rw [same, partner, partner']⟩
  · exact agree_throw _ mirrored

/-! ### Making objects -/

/-- An empty table: its storages first, each kept by the allocations after it. -/
theorem agree_newDict (mirrors : φ.Mirrors m.heap m'.heap) :
    φ.Agree m m' (fun x x' φ' _ _ => φ'.covers x ∧ φ'.partner x = x') (DictObject.new.run m) (DictObject.new.run m') := by
  have blank : ∀ (pins : List Handle) (m : Machine), m.heap.Sound none → (∀ s ∈ pins, m.heap.Blank s) → ∀ x,
      ((allocatePinned (.seglist {}) pins).run m).1 = .ok x →
      (∀ s ∈ x :: pins, ((allocatePinned (.seglist {}) pins).run m).2.heap.Blank s) ∧ x ∉ pins := by
    intro pins m sound pinned x made
    have keeps : HeapM.Keeps false (fun _ => True) _ (allocatePinned (.seglist {}) pins) _ :=
      keeps_allocateBlank (fun _ => False) pins
    obtain ⟨blank, fresh, -⟩ := (keeps m sound ⟨pinned, fun _ none => none.elim⟩).2 x made
    exact ⟨blank, fresh⟩
  have first : φ.Agree m m' _ (SegList.new.run m) (SegList.new.run m') :=
    agree_allocatePinned (.seglist {}) [] mirrors (List.forall_mem_nil _) (List.forall_mem_nil _) (placeable_storage _)
      (placeable_storage _)
  refine (first.knowing (P := fun s k => k.Blank s) (Q := fun s k => k.Blank s)
    (fun s made => (blank [] m mirrors.sound (List.forall_mem_nil _) s made).1 s List.mem_cons_self)
    (fun s made => (blank [] m' mirrors.sound' (List.forall_mem_nil _) s made).1 s List.mem_cons_self)).bind
    fun ks ks' φ₁ m₁ m₂ mirrored known => ?_
  obtain ⟨⟨keys, partner, -⟩, here, there⟩ := known
  subst partner
  have second := agree_allocatePinned (.seglist {}) [ks] mirrored (List.forall_mem_nil _)
    (fun y pin => List.mem_singleton.1 pin ▸ keys) (placeable_storage _) (placeable_storage _)
  refine (second.knowing (P := fun vs k => (∀ s ∈ [vs, ks], k.Blank s) ∧ vs ∉ [ks])
    (Q := fun vs k => (∀ s ∈ [vs, φ₁.partner ks], k.Blank s) ∧ vs ∉ [φ₁.partner ks])
    (blank [ks] m₁ mirrored.sound fun s member => List.mem_singleton.1 member ▸ here)
    (blank [φ₁.partner ks] m₂ mirrored.sound' fun s member => List.mem_singleton.1 member ▸ there)).bind
    fun vs vs' φ₂ m₃ m₄ mirrored' known => ?_
  obtain ⟨⟨vals, partner, -, kept⟩, ⟨here', apart⟩, there', apart'⟩ := known
  obtain ⟨keys', same⟩ := kept ks (by simp)
  rw [← same] at there' apart' ⊢
  subst partner
  have places : ∀ {k : Heap} {s t : Handle}, (∀ y ∈ [t, s], k.Blank y) → t ∉ [s] → Placeable (.dict ⟨0, s, t⟩) k := by
    intro k s t blank apart
    refine placeable_container (fun y member => blank y ?_) ?_ rfl rfl (by simp [Payload.tag]) (by simp [Payload.tag])
    · exact List.mem_pair.2 (List.mem_pair.1 member).symm
    · simpa [Payload.storages, eq_comm] using apart
  have container := agree_allocatePinned (.dict ⟨0, ks, vs⟩) [] mirrored' (fun y ref => ?_) (List.forall_mem_nil _)
    (places here' apart) (places there' apart')
  · exact container.mono fun x x' φ' _ _ _ ends => ⟨ends.1, ends.2.1⟩
  · rcases List.mem_pair.1 ref with rfl | rfl
    · exact keys'
    · exact vals

/-- A new object that owns no storage. -/
theorem agree_allocate (p : Payload) (mirrors : φ.Mirrors m.heap m'.heap) (refs : ∀ y ∈ p.refs, φ.covers y)
    (list : p.tag ≠ .seglist) (segment : p.tag ≠ .segment) (plain : p.storages = []) (count : p.count = 0) :
    φ.Agree m m' (fun x x' φ' _ _ => φ'.covers x ∧ φ'.partner x = x')
      ((allocate p).run m) ((allocate (p.map φ.partner)).run m') := by
  have placeable : Placeable p m.heap :=
    placeable_plain (fun y ref => (mirrors.element (refs y ref)).1) list segment plain count
  have placeable' : Placeable (p.map φ.partner) m'.heap := by
    refine placeable_plain (fun y ref => ?_) (by rwa [Payload.tag_map]) (by rwa [Payload.tag_map]) (by simp [plain]) (by simp [count])
    rw [Payload.refs_map] at ref
    obtain ⟨x, member, rfl⟩ := List.mem_map.1 ref
    exact (mirrors.element (refs x member)).2
  exact (agree_allocatePinned p [] mirrors refs (List.forall_mem_nil _) placeable placeable').mono
    fun x x' φ' _ _ _ ⟨covered, partner, _, _⟩ => ⟨covered, partner⟩

theorem Mirrors.intConstant? (mirrors : φ.Mirrors h g) (v : Int32) : g.intConstant? v = (h.intConstant? v).map φ.partner := by
  simp only [Heap.intConstant?, mirrors.constants, Constants.map]
  split_ifs <;> rfl

theorem covers_intConstant {v : Int32} (mirrors : φ.Mirrors h g) (constant : h.intConstant? v = some x) : φ.covers x := by
  refine mirrors.covered x (List.mem_append_left _ (List.mem_append_right _ ?_))
  unfold Heap.intConstant? at constant
  split_ifs at constant <;> cases constant <;> simp [Constants.toList]

theorem agree_newInt (mirrors : φ.Mirrors m.heap m'.heap) (v : Int32) :
    φ.Agree m m' (fun x x' φ' _ _ => φ'.covers x ∧ φ'.partner x = x') ((IntObject.new v).run m) ((IntObject.new v).run m') := by
  rw [IntObject.new, run_bind_ok (run_heap m), run_bind_ok (run_heap m'), mirrors.intConstant?]
  cases constant : m.heap.intConstant? v with
  | some x => exact agree_pure mirrors ⟨covers_intConstant mirrors constant, rfl⟩
  | none =>
    exact agree_allocate (.int v) mirrors (List.forall_mem_nil _) (by simp [Payload.tag]) (by simp [Payload.tag]) rfl rfl

theorem agree_newTuple {items : List Handle} (mirrors : φ.Mirrors m.heap m'.heap) (covered : ∀ y ∈ items, φ.covers y) :
    φ.Agree m m' (fun x x' φ' _ _ => φ'.covers x ∧ φ'.partner x = x')
      ((TupleObject.new items).run m) ((TupleObject.new (items.map φ.partner)).run m') :=
  agree_allocate (.tuple items) mirrors covered (by simp [Payload.tag]) (by simp [Payload.tag]) rfl rfl

theorem agree_newStr (mirrors : φ.Mirrors m.heap m'.heap) (text : String) :
    φ.Agree m m' (fun x x' φ' _ _ => φ'.covers x ∧ φ'.partner x = x') ((StrObject.new text).run m) ((StrObject.new text).run m') :=
  agree_allocate (.str text) mirrors (List.forall_mem_nil _) (by simp [Payload.tag]) (by simp [Payload.tag]) rfl rfl

variable {start stop step : Option Handle}

/-- The record of a slice with partners as bounds. -/
theorem Mirrors.sliceOf (mirrors : φ.Mirrors h g) (covered : ∀ x ∈ start.toList ++ stop.toList ++ step.toList, φ.covers x) :
    g.sliceOf (start.map φ.partner) (stop.map φ.partner) (step.map φ.partner) =
      (h.sliceOf start stop step).map fun r => ⟨r.start.map φ.partner, r.stop.map φ.partner, r.step.map φ.partner⟩ := by
  have bounds : g.sliceBound (start.map φ.partner) = _ := mirrors.sliceBound fun x bound => covered x (by simp [Option.mem_def.1 bound])
  have bounds' : g.sliceBound (stop.map φ.partner) = _ := mirrors.sliceBound fun x bound => covered x (by simp [Option.mem_def.1 bound])
  have bounds'' : g.sliceBound (step.map φ.partner) = _ := mirrors.sliceBound fun x bound => covered x (by simp [Option.mem_def.1 bound])
  rw [Heap.sliceOf, Heap.sliceOf, bounds, bounds', bounds'']
  cases h.sliceBound start with
  | error e => rfl
  | ok first =>
    cases h.sliceBound stop with
    | error e => rfl
    | ok last =>
      cases read : h.sliceBound step with
      | error e => rfl
      | ok stride =>
        cases stride with
        | none => rfl
        | some x =>
          have inside : φ.covers x := by
            rcases sliceBound_cases read with none | rfl
            · cases none
            · exact covered x (by simp)
          simp only [Except.map, bind, Except.bind, Option.map_some, mirrors.intValue inside]
          cases h.intValue x with
          | error e => rfl
          | ok v =>
            dsimp only
            split <;> rfl

theorem agree_newSlice (mirrors : φ.Mirrors m.heap m'.heap)
    (covered : ∀ x ∈ start.toList ++ stop.toList ++ step.toList, φ.covers x) :
    φ.Agree m m' (fun x x' φ' _ _ => φ'.covers x ∧ φ'.partner x = x') ((SliceObject.new start stop step).run m)
      ((SliceObject.new (start.map φ.partner) (stop.map φ.partner) (step.map φ.partner)).run m') := by
  have read : φ.Agree m m' (fun r r' ψ _ _ => ψ = φ ∧ r' = ⟨r.start.map φ.partner, r.stop.map φ.partner, r.step.map φ.partner⟩ ∧
        ∀ y ∈ (Payload.slice r).refs, φ.covers y)
      ((inspect fun h => h.sliceOf start stop step).run m)
      ((inspect fun h => h.sliceOf (start.map φ.partner) (stop.map φ.partner) (step.map φ.partner)).run m') :=
    agree_inspect _ mirrors (mirrors.sliceOf covered) fun r read => ⟨rfl, rfl, fun y ref => covered y (sliceOf_refs read ref)⟩
  refine read.bind fun r r' ψ m₁ m₂ mirrored ⟨pairing, record, refs⟩ => ?_
  subst pairing record
  exact agree_allocate (.slice r) mirrored refs (by simp [Payload.tag]) (by simp [Payload.tag]) rfl rfl

end Pairing

end ChunkHeap

import ChunkHeap.Proofs.Containers.Entries
import ChunkHeap.Proofs.Descent
import Mathlib.Order.WellFounded

/-!
# Attribute lookup

An attribute is looked for in an object and then in its bases, depth first. The order
in which objects come up is `Heap.Preorder`, and `Heap.firstAttribute` is what the first
of their tables gives that has the attribute. No class descends from itself, so there is
such an order, and along every path of a search the objects differ from each other: the
search never goes deeper than the arena has slots.

`Client.attributes_found_in_preorder` puts this together for every heap that a run comes to.
-/

namespace ChunkHeap
set_option autoImplicit false

open HeapM Heap Relation

namespace Heap

variable {h g : Heap} {x y a b key : Handle} {r : ClassRecord} {xs ys order : List Handle} {e : Error}

/-- `b` is among the bases of the class or instance `a`. -/
def HasBase (h : Heap) (a b : Handle) : Prop :=
  ∃ r bases, h.classRecord a = .ok r ∧ h.tupleItems r.bases = .ok bases ∧ b ∈ bases

/-- The objects that a search from `xs` comes to, in order: each class or instance before
its bases, and these before what follows it. -/
inductive Preorder (h : Heap) : (xs order : List Handle) → Prop
  | nil : Preorder h [] []
  | node {x : Handle} {r : ClassRecord} {bases xs below after : List Handle} (record : h.classRecord x = .ok r)
      (tuple : h.tupleItems r.bases = .ok bases) (under : Preorder h bases below) (rest : Preorder h xs after) :
      Preorder h (x :: xs) (x :: (below ++ after))
  /-- Neither a class nor an instance. -/
  | stranger {x : Handle} {e : Error} {xs after : List Handle} (other : h.classRecord x = .error e)
      (rest : Preorder h xs after) : Preorder h (x :: xs) (x :: after)

/-- What the table of a class or instance has under a key. -/
def ownAttribute (h : Heap) (key x : Handle) : Except Error (Option Handle) := do
  let r ← h.classRecord x
  let t ← h.dictRecord r.attrs
  let keys ← h.segListItems t.keys
  let vals ← h.segListItems t.vals
  h.foundIn key (keys.zip vals)

/-- What the first of some objects has under a key that has anything. -/
def firstAttribute (h : Heap) (key : Handle) : List Handle → Except Error (Option Handle)
  | [] => .ok none
  | x :: xs => do
    match ← h.ownAttribute key x with
    | some value => return some value
    | none => h.firstAttribute key xs

theorem element_of_classRecord (record : h.classRecord x = .ok r) : h.Element x := by
  rcases classRecord_eq_ok_iff.1 record with found | found
  · exact ⟨_, found, by simp [Payload.tag]⟩
  · exact ⟨_, found, by simp [Payload.tag]⟩

/-! ### No cycles -/

theorem HasBase.ancestor (base : h.HasBase a b) : TransGen h.ParentOf b a := by
  obtain ⟨r, bases, record, tuple, member⟩ := base
  have parent : h.ParentOf b r.bases := ⟨_, tupleItems_eq_ok_iff.1 tuple, member⟩
  refine .tail (.single parent) ?_
  rcases classRecord_eq_ok_iff.1 record with found | found
  · exact ⟨_, found, List.mem_singleton_self _⟩
  · exact ⟨_, found, List.mem_singleton_self _⟩

theorem Lineal.not_own_ancestor (lineal : h.Lineal) (x : Handle) : ¬ TransGen h.ParentOf x x :=
  lineal.founded.transGen.irrefl.irrefl x

theorem Lineal.acyclic (lineal : h.Lineal) (x : Handle) : ¬ TransGen h.HasBase x x := by
  have ancestors : ∀ {a b}, TransGen h.HasBase a b → TransGen h.ParentOf b a := by
    intro a b path
    induction path with
    | single base => exact base.ancestor
    | tail _ base ih => exact base.ancestor.trans ih
  exact fun cycle => lineal.not_own_ancestor x (ancestors cycle)

/-- A class has a table, and a tuple of live objects for its bases. -/
theorem Lineal.record_spec (lineal : h.Lineal) (record : h.classRecord x = .ok r) :
    (∃ t, h.find? r.attrs = some (.dict t)) ∧ ∃ bases, h.tupleItems r.bases = .ok bases ∧ ∀ y ∈ bases, h.Element y := by
  have pedigree : h.Pedigree (.cls r) := by
    rcases classRecord_eq_ok_iff.1 record with found | found
    · exact lineal.pedigrees x (.cls r) found
    · exact lineal.pedigrees x (.inst r) found
  obtain ⟨table, bases, found⟩ := pedigree
  exact ⟨table, bases, tupleItems_eq_ok_iff.2 found, lineal.pedigrees r.bases _ found⟩

theorem Lineal.exists_preorder (lineal : h.Lineal) (xs : List Handle) : ∃ order, h.Preorder xs order := by
  have each : ∀ x, ∃ below, ∀ xs after, h.Preorder xs after → h.Preorder (x :: xs) (x :: (below ++ after)) := by
    intro x
    induction x using lineal.founded.transGen.induction with
    | _ x ih =>
      cases record : h.classRecord x with
      | error e => exact ⟨[], fun _ _ rest => .stranger record rest⟩
      | ok r =>
        obtain ⟨-, bases, tuple, -⟩ := lineal.record_spec record
        have among : ∀ ys, ys ⊆ bases → ∃ below, h.Preorder ys below := by
          intro ys subset
          induction ys with
          | nil => exact ⟨[], .nil⟩
          | cons y ys rest =>
            obtain ⟨first, others⟩ := List.cons_subset.1 subset
            obtain ⟨below, step⟩ := ih y (HasBase.ancestor ⟨r, bases, record, tuple, first⟩)
            obtain ⟨after, behind⟩ := rest others
            exact ⟨_, step ys after behind⟩
        obtain ⟨below, under⟩ := among bases (List.Subset.refl bases)
        exact ⟨below, fun _ _ rest => .node record tuple under rest⟩
  induction xs with
  | nil => exact ⟨[], .nil⟩
  | cons x xs ih =>
    obtain ⟨below, step⟩ := each x
    obtain ⟨after, rest⟩ := ih
    exact ⟨_, step xs after rest⟩

/-- A search comes to live objects only. -/
theorem Preorder.elements (preorder : h.Preorder xs order) (lineal : h.Lineal) (live : ∀ x ∈ xs, h.Element x) :
    ∀ y ∈ order, h.Element y := by
  induction preorder with
  | nil => exact live
  | @node x r bases xs below after record tuple under rest above behind =>
    obtain ⟨-, bases', tuple', bases_live⟩ := lineal.record_spec record
    rw [tuple] at tuple'
    cases tuple'
    rw [List.forall_mem_cons] at live ⊢
    refine ⟨live.1, fun y member => ?_⟩
    exact (List.mem_append.1 member).elim (above bases_live y) (behind live.2 y)
  | stranger other rest behind =>
    rw [List.forall_mem_cons] at live ⊢
    exact ⟨live.1, behind live.2⟩

/-! ### Tables -/

/-- The table of an object as entries. -/
theorem Sound.ownAttribute_eq (sound : h.Sound none) (lineal : h.Lineal) (record : h.classRecord x = .ok r) :
    ∃ ks vs E, h.HasEntries r.attrs ks vs E ∧ ∀ key, h.ownAttribute key x = h.foundIn key E := by
  obtain ⟨⟨t, table⟩, -⟩ := lineal.record_spec record
  obtain ⟨E, has⟩ := sound.hasEntries table
  refine ⟨t.keys, t.vals, E, has, fun key => ?_⟩
  have keys := (segListItems_of_items has.keys).2
  have vals := (segListItems_of_items has.vals).2
  have entries : (E.map Prod.fst).zip (E.map Prod.snd) = E := by
    rw [List.zip_map', List.map_id']
  simp only [ownAttribute, record, dictRecord_eq_ok_iff.2 table, keys, vals, entries, bind, Except.bind]

theorem ownAttribute_stranger (key : Handle) (other : h.classRecord x = .error e) : h.ownAttribute key x = .error e := by
  rw [ownAttribute, other]
  rfl

/-- What keeps a table from being searched is that a key cannot be compared. -/
theorem Sound.ownAttribute_error (sound : h.Sound none) (lineal : h.Lineal) (live : ∃ p, h.find? key = some p)
    (record : h.classRecord x = .ok r) (failed : h.ownAttribute key x = .error e) : e = .compareDepth := by
  obtain ⟨ks, vs, E, has, own⟩ := sound.ownAttribute_eq lineal record
  rw [own, foundIn] at failed
  cases searched : search (h.sameAs key) (E.map Prod.fst) with
  | ok found =>
    rw [searched] at failed
    cases failed
  | error e' =>
    rw [searched] at failed
    cases failed
    obtain ⟨i, k, here, tested, -⟩ := search_eq_error_iff.1 searched
    obtain ⟨_, found⟩ := (sound.element_of_ref has.keys (List.mem_of_getElem? here)).live
    obtain ⟨_, found'⟩ := live
    rw [sameAs] at tested
    cases compared : h.compare k key with
    | ok outcome =>
      rw [compared] at tested
      cases tested
    | error e'' =>
      rw [compared] at tested
      cases tested
      exact compareWithin_error sound _ found found' compared

/-! ### Along an order -/

theorem firstAttribute_cons_of_missed (missed : h.ownAttribute key x = .ok none) :
    h.firstAttribute key (x :: xs) = h.firstAttribute key xs := by
  rw [firstAttribute, missed]
  rfl

theorem firstAttribute_cons_of_stopped (stopped : h.ownAttribute key x ≠ .ok none) :
    h.firstAttribute key (x :: xs) = h.ownAttribute key x := by
  rw [firstAttribute]
  rcases own : h.ownAttribute key x with e | _ | value
  · rfl
  · exact absurd own stopped
  · rfl

theorem firstAttribute_eq_none_iff : h.firstAttribute key xs = .ok none ↔ ∀ x ∈ xs, h.ownAttribute key x = .ok none := by
  induction xs with
  | nil => simp [firstAttribute]
  | cons x xs ih =>
    rw [List.forall_mem_cons]
    by_cases missed : h.ownAttribute key x = .ok none
    · rw [firstAttribute_cons_of_missed missed, ih, and_iff_right missed]
    · rw [firstAttribute_cons_of_stopped missed, and_iff_left_of_imp fun first => absurd first missed]

theorem firstAttribute_append_of_missed (missed : h.firstAttribute key xs = .ok none) :
    h.firstAttribute key (xs ++ ys) = h.firstAttribute key ys := by
  rw [firstAttribute_eq_none_iff] at missed
  induction xs with
  | nil => rfl
  | cons x xs ih =>
    rw [List.forall_mem_cons] at missed
    rw [List.cons_append, firstAttribute_cons_of_missed missed.1, ih missed.2]

theorem firstAttribute_append_of_stopped (stopped : h.firstAttribute key xs ≠ .ok none) :
    h.firstAttribute key (xs ++ ys) = h.firstAttribute key xs := by
  induction xs with
  | nil => exact absurd rfl stopped
  | cons x xs ih =>
    rw [List.cons_append]
    by_cases missed : h.ownAttribute key x = .ok none
    · rw [firstAttribute_cons_of_missed missed] at stopped ⊢
      rw [firstAttribute_cons_of_missed missed, ih stopped]
    · rw [firstAttribute_cons_of_stopped missed, firstAttribute_cons_of_stopped missed]

/-- Where the objects before have nothing, the next one counts. -/
theorem firstAttribute_at (missed : ∀ x ∈ xs, h.ownAttribute key x = .ok none) (here : h.ownAttribute key y ≠ .ok none) :
    h.firstAttribute key (xs ++ y :: ys) = h.ownAttribute key y := by
  rw [firstAttribute_append_of_missed (firstAttribute_eq_none_iff.2 missed), firstAttribute_cons_of_stopped here]

/-- The error of a search is that of one of the objects. -/
theorem exists_of_firstAttribute_error (failed : h.firstAttribute key xs = .error e) :
    ∃ x ∈ xs, h.ownAttribute key x = .error e := by
  induction xs with
  | nil => cases failed
  | cons x xs ih =>
    by_cases missed : h.ownAttribute key x = .ok none
    · rw [firstAttribute_cons_of_missed missed] at failed
      obtain ⟨y, member, failed'⟩ := ih failed
      exact ⟨y, List.mem_cons_of_mem x member, failed'⟩
    · rw [firstAttribute_cons_of_stopped missed] at failed
      exact ⟨x, List.mem_cons_self, failed⟩

/-! ### Cursors -/

theorem Glanced.classRecord (glanced : Glanced h g) (x : Handle) : g.classRecord x = h.classRecord x := by
  have same := glanced.payloads x
  rw [Heap.classRecord, Heap.classRecord, payload_eq, payload_eq]
  cases found : h.find? x with
  | none =>
    rw [found] at same
    rw [Option.map_eq_none_iff.1 same]
  | some p =>
    obtain ⟨q, found', still⟩ := glanced.alike found
    rw [found']
    by_cases list : p.tag = .seglist
    · have list' : q.tag = .seglist := by rw [← q.tag_still, still, p.tag_still, list]
      cases p <;> cases list
      cases q <;> cases list'
      rfl
    · rw [Payload.eq_of_still still list]

theorem Glanced.foundIn {E : List (Handle × Handle)} {d ks vs : Handle} (glanced : Glanced h g) (sound : h.Sound none)
    (live : ∃ p, h.find? key = some p) (has : h.HasEntries d ks vs E) : g.foundIn key E = h.foundIn key E := by
  rw [Heap.foundIn, Heap.foundIn, search_congr fun x member => ?_]
  exact glanced.sameAs sound live (sound.element_of_ref has.keys member)

end Heap

/-! ### The search -/

namespace ClassObject

variable {h : Heap} {m m₁ : Machine} {x key : Handle} {r : ClassRecord} {bases xs order : List Handle} {fuel : Nat}
  {found : Except Error (Option Handle)} {search : Handle → HeapM (Option Handle)}

theorem run_firstFound_of_missed (ran : (search x).run m = (.ok none, m₁)) :
    (firstFound search (x :: xs)).run m = (firstFound search xs).run m₁ := by
  rw [firstFound, run_bind_ok ran]

theorem run_firstFound_of_stopped (ran : (search x).run m = (found, m₁)) (stopped : found ≠ .ok none) :
    (firstFound search (x :: xs)).run m = (found, m₁) := by
  rw [firstFound]
  rcases found with e | _ | value
  · rw [run_bind_error ran]
  · exact absurd rfl stopped
  · rw [run_bind_ok ran]
    rfl

theorem run_firstFound_singleton (search : Handle → HeapM (Option Handle)) (x : Handle) (m : Machine) :
    (firstFound search [x]).run m = (search x).run m := by
  rcases ran : (search x).run m with ⟨found, m'⟩
  by_cases missed : found = .ok none
  · subst missed
    exact run_firstFound_of_missed ran
  · exact run_firstFound_of_stopped ran missed

theorem run_lookupWithin_of_missed (record : m.heap.classRecord x = .ok r)
    (looked : (DictObject.lookup r.attrs key).run m = (.ok none, m₁)) (tuple : m₁.heap.tupleItems r.bases = .ok bases) :
    (lookupWithin key (fuel + 1) x).run m = (firstFound (lookupWithin key fuel) bases).run m₁ := by
  rw [lookupWithin, run_bind_ok (run_inspect_ok record), run_bind_ok looked]
  exact run_bind_ok (run_inspect_ok tuple)

theorem run_lookupWithin_of_stopped (record : m.heap.classRecord x = .ok r)
    (looked : (DictObject.lookup r.attrs key).run m = (found, m₁)) (stopped : found ≠ .ok none) :
    (lookupWithin key (fuel + 1) x).run m = (found, m₁) := by
  rw [lookupWithin, run_bind_ok (run_inspect_ok record)]
  rcases found with e | _ | value
  · rw [run_bind_error looked]
  · exact absurd rfl stopped
  · rw [run_bind_ok looked]
    rfl

/-- Looking in the table of one object. -/
theorem run_lookup_own (sound : h.Sound none) (lineal : h.Lineal) (live : ∃ p, h.find? key = some p)
    (record : h.classRecord x = .ok r) (glanced : Glanced h m.heap) :
    ∃ m', (DictObject.lookup r.attrs key).run m = (h.ownAttribute key x, m') ∧ Glanced h m'.heap := by
  obtain ⟨ks, vs, E, has, own⟩ := sound.ownAttribute_eq lineal record
  have live' : ∃ q, m.heap.find? key = some q := by
    obtain ⟨p, found⟩ := live
    exact (glanced.alike found).imp fun _ facts => facts.1
  obtain ⟨m', ran, glanced'⟩ := DictObject.run_lookup (glanced.sound none sound) (has.glanced glanced sound) live'
  exact ⟨m', by rw [ran, own, glanced.foundIn sound live has], glanced.trans glanced'⟩

/-- There are fewer objects on a trail than slots, so another live object that is not on
it leaves fuel for one more level. -/
theorem deeper {trail : List Handle} (distinct : (x :: trail).Nodup) (live : ∀ t ∈ x :: trail, h.Element t)
    (enough : h.arena.slots.size ≤ fuel + trail.length) :
    ∃ less, fuel = less + 1 ∧ h.arena.slots.size ≤ less + (x :: trail).length := by
  have room := Arena.length_le_size distinct fun t member => by
    obtain ⟨p, found⟩ := (live t member).live
    exact (find?_eq_some_iff.1 found).imp fun _ facts => facts.1
  rw [List.length_cons] at room ⊢
  exact ⟨fuel - 1, by omega, by omega⟩

/-- **The search along an order.** `trail` is the way down to `xs`, and everything on it
descends from each of them. -/
theorem run_firstFound (preorder : h.Preorder xs order) (sound : h.Sound none) (lineal : h.Lineal)
    (live : ∃ p, h.find? key = some p) (trail : List Handle) (distinct : trail.Nodup)
    (trail_live : ∀ t ∈ trail, h.Element t) (older : ∀ x ∈ xs, h.Element x ∧ ∀ t ∈ trail, TransGen h.ParentOf x t)
    (m : Machine) (glanced : Glanced h m.heap) :
    ∃ m', Glanced h m'.heap ∧ ∀ fuel, h.arena.slots.size ≤ fuel + trail.length →
      (firstFound (lookupWithin key fuel) xs).run m = (h.firstAttribute key order, m') := by
  have longer : ∀ {x : Handle} {trail : List Handle}, trail.Nodup → (∀ t ∈ trail, h.Element t) → h.Element x →
      (∀ t ∈ trail, TransGen h.ParentOf x t) → (x :: trail).Nodup ∧ ∀ t ∈ x :: trail, h.Element t := by
    intro x trail distinct trail_live element older
    have new : x ∉ trail := fun member => lineal.not_own_ancestor x (older x member)
    exact ⟨List.nodup_cons.2 ⟨new, distinct⟩, List.forall_mem_cons.2 ⟨element, trail_live⟩⟩
  -- a path upwards never meets a class twice, so the trail of classes above bounds the depth of the search
  induction preorder generalizing trail m with
  | nil => exact ⟨m, glanced, fun _ _ => rfl⟩
  | @node x r bases xs below after record tuple under rest inner outer =>
    obtain ⟨⟨element, x_older⟩, others⟩ := List.forall_mem_cons.1 older
    obtain ⟨distinct', live'⟩ := longer distinct trail_live element x_older
    obtain ⟨m₁, looked, glanced₁⟩ := run_lookup_own sound lineal live record glanced
    have record' := (glanced.classRecord x).trans record
    by_cases missed : h.ownAttribute key x = .ok none
    · rw [missed] at looked
      have tuple₁ : m₁.heap.tupleItems r.bases = .ok bases :=
        tupleItems_eq_ok_iff.2 (glanced₁.find? (tupleItems_eq_ok_iff.1 tuple) (by simp [Payload.tag]))
      have bases_older : ∀ y ∈ bases, h.Element y ∧ ∀ t ∈ x :: trail, TransGen h.ParentOf y t := by
        intro y member
        have ancestor : TransGen h.ParentOf y x := HasBase.ancestor ⟨r, bases, record, tuple, member⟩
        obtain ⟨-, bases', tuple', bases_live⟩ := lineal.record_spec record
        rw [tuple] at tuple'
        cases tuple'
        exact ⟨bases_live y member, List.forall_mem_cons.2 ⟨ancestor, fun t on => ancestor.trans (x_older t on)⟩⟩
      obtain ⟨m₂, glanced₂, searched⟩ := inner (x :: trail) distinct' live' bases_older m₁ glanced₁
      have level : ∀ fuel, h.arena.slots.size ≤ fuel + trail.length →
          (lookupWithin key fuel x).run m = (h.firstAttribute key below, m₂) := by
        intro fuel enough
        obtain ⟨less, rfl, enough'⟩ := deeper distinct' live' enough
        rw [run_lookupWithin_of_missed record' looked tuple₁, searched less enough']
      by_cases none_below : h.firstAttribute key below = .ok none
      · obtain ⟨m₃, glanced₃, finished⟩ := outer trail distinct trail_live others m₂ glanced₂
        refine ⟨m₃, glanced₃, fun fuel enough => ?_⟩
        rw [run_firstFound_of_missed ((level fuel enough).trans (by rw [none_below])), finished fuel enough]
        rw [firstAttribute_cons_of_missed missed, firstAttribute_append_of_missed none_below]
      · refine ⟨m₂, glanced₂, fun fuel enough => ?_⟩
        rw [run_firstFound_of_stopped (level fuel enough) none_below]
        rw [firstAttribute_cons_of_missed missed, firstAttribute_append_of_stopped none_below]
    · refine ⟨m₁, glanced₁, fun fuel enough => ?_⟩
      obtain ⟨less, rfl, -⟩ := deeper distinct' live' enough
      rw [run_firstFound_of_stopped (run_lookupWithin_of_stopped record' looked missed) missed]
      rw [firstAttribute_cons_of_stopped missed]
  | @stranger x e xs after other rest outer =>
    obtain ⟨⟨element, x_older⟩, others⟩ := List.forall_mem_cons.1 older
    obtain ⟨distinct', live'⟩ := longer distinct trail_live element x_older
    refine ⟨m, glanced, fun fuel enough => ?_⟩
    obtain ⟨less, rfl, -⟩ := deeper distinct' live' enough
    have failed : (lookupWithin key (less + 1) x).run m = (.error e, m) := by
      rw [lookupWithin, run_bind_error (by rw [run_inspect, glanced.classRecord, other])]
    have own := ownAttribute_stranger key other
    rw [run_firstFound_of_stopped failed (by simp), firstAttribute_cons_of_stopped (by simp [own]), own]

/-! ### Attributes of an object -/

/-- What looking `key` up from `x` gives, by what the tables along `order` have. -/
structure Follows (m : Machine) (x key : Handle) (order : List Handle) : Prop where
  /-- The search ends by itself: leave to go deeper changes nothing. -/
  ends : ∀ fuel, m.heap.arena.slots.size ≤ fuel → (lookupWithin key fuel x).run m = (lookup x key).run m
  hit : ∀ front y back value, order = front ++ y :: back → (∀ z ∈ front, m.heap.ownAttribute key z = .ok none) →
    m.heap.ownAttribute key y = .ok (some value) → ((get x key).run m).1 = .ok value
  /-- Neither a class nor an instance before a hit. -/
  stranger : ∀ front y back, order = front ++ y :: back → (∀ z ∈ front, m.heap.ownAttribute key z = .ok none) →
    (∀ r, m.heap.classRecord y ≠ .ok r) → ∃ e, ((get x key).run m).1 = .error e ∧ e.kind = .type
  /-- A comparison of keys fails before a hit. -/
  undecided : ∀ front y back r e, order = front ++ y :: back → (∀ z ∈ front, m.heap.ownAttribute key z = .ok none) →
    m.heap.classRecord y = .ok r → m.heap.ownAttribute key y = .error e →
    e = .compareDepth ∧ ((get x key).run m).1 = .error e
  missing : (∃ e, ((get x key).run m).1 = .error e ∧ e.kind = .key) ↔ ∀ y ∈ order, m.heap.ownAttribute key y = .ok none

theorem run_get_fst (looked : (lookup x key).run m = (found, m₁)) :
    ((get x key).run m).1 = found.bind fun
      | some value => .ok value
      | none => .error .attributeMissing := by
  rw [get, run_bind, looked]
  rcases found with e | _ | value <;> rfl

theorem kind_of_classRecord_error {e : Error} (element : h.Element x) (other : h.classRecord x = .error e) : e.kind = .type := by
  obtain ⟨p, found⟩ := element.live
  rw [Heap.classRecord, payload_eq_ok_iff.2 found] at other
  cases p <;> cases other <;> rfl

/-- No table takes an attribute that it lacks for an error. -/
theorem kind_of_ownAttribute_error {e : Error} (sound : h.Sound none) (lineal : h.Lineal)
    (live : ∃ p, h.find? key = some p) (element : h.Element x) (own : h.ownAttribute key x = .error e) : e.kind ≠ .key := by
  cases record : h.classRecord x with
  | ok r =>
    rw [sound.ownAttribute_error lineal live record own]
    decide
  | error e' =>
    rw [ownAttribute_stranger key record] at own
    cases own
    rw [kind_of_classRecord_error element record]
    decide

/-- **Lookup follows the order.** -/
theorem follows (sound : m.heap.Sound none) (lineal : m.heap.Lineal) (live : ∃ p, m.heap.find? key = some p)
    (preorder : m.heap.Preorder [x] order) (element : m.heap.Element x) : Follows m x key order := by
  have alone : ∀ y ∈ [x], m.heap.Element y := List.forall_mem_singleton.2 element
  obtain ⟨m', -, searched⟩ := run_firstFound preorder sound lineal live [] List.nodup_nil (List.forall_mem_nil _)
    (fun y member => ⟨alone y member, List.forall_mem_nil _⟩) m (.refl m.heap)
  have looked : ∀ fuel, m.heap.arena.slots.size ≤ fuel →
      (lookupWithin key fuel x).run m = (m.heap.firstAttribute key order, m') := by
    intro fuel enough
    rw [← run_firstFound_singleton, searched fuel enough]
  have found : (lookup x key).run m = (m.heap.firstAttribute key order, m') := by
    rw [lookup, run_bind_ok (run_heap m), looked _ le_rfl]
  have got := run_get_fst found
  refine ⟨fun fuel enough => (looked fuel enough).trans found.symm, ?_, ?_, ?_, ?_⟩
  · rintro front y back value rfl missed own
    rw [got, firstAttribute_at missed (by simp [own]), own]
    rfl
  · rintro front y back rfl missed other
    cases record : m.heap.classRecord y with
    | ok r => exact absurd record (other r)
    | error e =>
      have own := ownAttribute_stranger key record
      refine ⟨e, ?_, kind_of_classRecord_error (preorder.elements lineal alone y (by simp)) record⟩
      rw [got, firstAttribute_at missed (by simp [own]), own]
      rfl
  · rintro front y back r e rfl missed record own
    refine ⟨sound.ownAttribute_error lineal live record own, ?_⟩
    rw [got, firstAttribute_at missed (by simp [own]), own]
    rfl
  · rw [got, ← firstAttribute_eq_none_iff]
    constructor
    -- no class on the way fails with a key error of its own
    · rintro ⟨e, failed, key_error⟩
      cases first : m.heap.firstAttribute key order with
      | ok value =>
        rw [first] at failed
        cases value with
        | none => rfl
        | some value => cases failed
      | error e' =>
        rw [first] at failed
        cases failed
        obtain ⟨y, member, own⟩ := exists_of_firstAttribute_error first
        exact absurd key_error (kind_of_ownAttribute_error sound lineal live (preorder.elements lineal alone y member) own)
    · intro missed
      rw [missed]
      exact ⟨_, rfl, rfl⟩

end ClassObject

namespace Client

/-- In every heap of a run no class or instance is among its own bases, the bases of these
and so on, and a lookup follows the order of the bases. -/
theorem attributes_found_in_preorder (call : Interpreter) {config : HeapConfig} {m : Machine} {s : Client}
    (made : Machine.create config = (.ok (), m)) (visited : Visited call { machine := m } s) :
    (∀ x, ¬ TransGen s.machine.heap.HasBase x x) ∧
      ∀ x r key, s.machine.heap.classRecord x = .ok r → s.machine.heap.isLive key = true →
        (∃ order, s.machine.heap.Preorder [x] order) ∧
          ∀ order, s.machine.heap.Preorder [x] order → ClassObject.Follows s.machine x key order := by
  have start := Client.sane_new made
  have sound := (visited.sane start).sound
  have lineal := visited.lineal start (Machine.create_lineal made)
  refine ⟨lineal.acyclic, fun x r key record live => ⟨lineal.exists_preorder [x], fun order preorder => ?_⟩⟩
  exact ClassObject.follows sound lineal (isLive_iff_find?.1 live) preorder (element_of_classRecord record)

def roomy : HeapConfig := { arenaBytes := 1024, maxChunkBytes := 64 }

/-- Make a class with an attribute behind five tuples, drop these, and make another class in
one of their slots. Its bases are the first class and a string. -/
def inherit : List Call :=
  [.create (.str "colour"), .pushRoot ⟨4⟩, .create (.str "red"), .pushRoot ⟨5⟩, .create (.tuple []), .create (.tuple []),
    .create (.tuple []), .create (.tuple []), .create (.tuple []), .create .dict, .pushRoot ⟨13⟩,
    .update (.dictSet ⟨13⟩ ⟨4⟩ ⟨5⟩), .create (.tuple []), .pushRoot ⟨16⟩, .create (.cls ⟨4⟩ ⟨13⟩ ⟨16⟩), .pushRoot ⟨17⟩,
    .collect, .create .dict, .pushRoot ⟨8⟩, .create (.tuple [⟨17⟩, ⟨5⟩]), .pushRoot ⟨7⟩, .create (.cls ⟨5⟩ ⟨8⟩ ⟨7⟩)]

def inherited : Client :=
  inherit.foldl (after tidying) { machine := (Machine.create roomy).2 }

theorem preorder_base {xs after : List Handle} (rest : inherited.machine.heap.Preorder xs after) :
    inherited.machine.heap.Preorder (⟨17⟩ :: xs) (⟨17⟩ :: after) :=
  .node (show inherited.machine.heap.classRecord ⟨17⟩ = .ok ⟨⟨4⟩, ⟨13⟩, ⟨16⟩⟩ by decide +kernel)
    (show inherited.machine.heap.tupleItems ⟨16⟩ = .ok [] by decide +kernel) .nil rest

theorem preorder_derived : inherited.machine.heap.Preorder [⟨6⟩] [⟨6⟩, ⟨17⟩, ⟨5⟩] :=
  .node (show inherited.machine.heap.classRecord ⟨6⟩ = .ok ⟨⟨5⟩, ⟨8⟩, ⟨7⟩⟩ by decide +kernel)
    (show inherited.machine.heap.tupleItems ⟨7⟩ = .ok [⟨17⟩, ⟨5⟩] by decide +kernel)
    (preorder_base (.stranger (e := .mismatch .cls .str) (by decide +kernel) .nil)) .nil

/-- Found with the base, stopped by the string, and missing from the base. -/
theorem attributes_found_in_preorder_inherited :
    Machine.create roomy = (.ok (), (Machine.create roomy).2) ∧
      Visited tidying { machine := (Machine.create roomy).2 } inherited ∧
      inherited.machine.heap.HasBase ⟨6⟩ ⟨17⟩ ∧ ¬ TransGen inherited.machine.heap.HasBase ⟨6⟩ ⟨6⟩ ∧
      ((ClassObject.get ⟨6⟩ ⟨4⟩).run inherited.machine).1 = .ok ⟨5⟩ ∧
      (∃ e, ((ClassObject.get ⟨6⟩ ⟨5⟩).run inherited.machine).1 = .error e ∧ e.kind = .type) ∧
      ∃ e, ((ClassObject.get ⟨17⟩ ⟨5⟩).run inherited.machine).1 = .error e ∧ e.kind = .key := by
  have made : Machine.create roomy = (.ok (), (Machine.create roomy).2) := by rfl
  have visited : Visited tidying { machine := (Machine.create roomy).2 } inherited :=
    .between ((Run.refl _).admitted (by decide +kernel))
  obtain ⟨acyclic, lookups⟩ := attributes_found_in_preorder tidying made visited
  have missed : ∀ y ∈ [⟨6⟩, ⟨17⟩], inherited.machine.heap.ownAttribute ⟨5⟩ y = .ok none := by decide +kernel
  have other : inherited.machine.heap.classRecord ⟨5⟩ = .error (.mismatch .cls .str) := by decide +kernel
  have nearest := (lookups ⟨6⟩ ⟨⟨5⟩, ⟨8⟩, ⟨7⟩⟩ ⟨4⟩ (by decide +kernel) (by decide +kernel)).2 _ preorder_derived
  have stopped := (lookups ⟨6⟩ ⟨⟨5⟩, ⟨8⟩, ⟨7⟩⟩ ⟨5⟩ (by decide +kernel) (by decide +kernel)).2 _ preorder_derived
  have exhausted := (lookups ⟨17⟩ ⟨⟨4⟩, ⟨13⟩, ⟨16⟩⟩ ⟨5⟩ (by decide +kernel) (by decide +kernel)).2 _ (preorder_base .nil)
  refine ⟨made, visited, ?_, acyclic _, ?_, ?_, ?_⟩
  · exact ⟨⟨⟨5⟩, ⟨8⟩, ⟨7⟩⟩, [⟨17⟩, ⟨5⟩], by decide +kernel, by decide +kernel, by decide⟩
  · exact nearest.hit [⟨6⟩] ⟨17⟩ [⟨5⟩] ⟨5⟩ rfl (by decide +kernel) (by decide +kernel)
  · exact stopped.stranger [⟨6⟩, ⟨17⟩] ⟨5⟩ [] rfl missed fun r record => by rw [other] at record; cases record
  · exact exhausted.missing.2 (by decide +kernel)

end Client

end ChunkHeap

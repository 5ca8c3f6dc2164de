import ChunkHeap.Proofs.Likeness.Agreement

/-!
# Lists in heaps that mirror each other

Operations on a list and on its partner agree. Single updates follow from what they
bring about in each heap; operations that are made of several go step by step, with
loops that hold on to what they need: an object within reach stays within reach
while a list grows, and while a list shrinks nothing is collected at all.
-/

namespace ChunkHeap
set_option autoImplicit false

open HeapM Heap

namespace Pairing

variable {φ : Pairing} {h g h' g' : Heap} {m m' m₁ m₂ : Machine} {x l s source : Handle} {xs ys items : List Handle}
  {index : Int}

/-! ### Single updates -/

theorem Mirrors.own (mirrors : φ.Mirrors h g) (list : φ.covers l) (storage : φ.covers s) (covered : φ.covers x) :
    Own l s x ↔ Own (φ.partner l) (φ.partner s) (φ.partner x) := by
  constructor
  · exact Or.imp (congrArg φ.partner) (congrArg φ.partner)
  · exact Or.imp (mirrors.injective x l covered list) (mirrors.injective x s covered storage)

/-- The same update of a list and of its partner. -/
theorem Mirrors.items_updated (mirrors : φ.Mirrors h g) (list : φ.covers l) (has : h.HasItems l s xs)
    (left : Altered (Own l s) h h') (right : Altered (Own (φ.partner l) (φ.partner s)) g g') (after : h'.HasItems l s ys)
    (after' : g'.HasItems (φ.partner l) (φ.partner s) (ys.map φ.partner)) (elements : ∀ y ∈ ys, φ.covers y) :
    (φ.within h' g').Mirrors h' g' := by
  have storage := (mirrors.hasItems list has).2.1
  refine mirrors.altered left right (fun x covered => mirrors.own list storage covered) ?_
  rintro x - (rfl | rfl)
  · refine ⟨_, after.record, after'.record.trans ?_, ?_⟩
    · rw [List.length_map]
      rfl
    · intro y ref
      rw [List.mem_singleton.1 ref]
      exact storage
  · exact ⟨_, after.storage, after'.storage, elements⟩

/-- Reading at a position. -/
theorem agree_segListGet (mirrors : φ.Mirrors m.heap m'.heap) (covered : φ.covers s) (i : Nat) :
    φ.Agree m m' (fun x x' φ' h' _ => φ'.covers x ∧ φ'.partner x = x' ∧ φ.KeepsRooted m.heap φ' h' ∧ φ.Keeps φ')
      ((SegList.get s i).run m) ((SegList.get (φ.partner s) i).run m') := by
  obtain ⟨content, here, there, refs⟩ := mirrors.shown s covered
  cases content with
  | record p =>
    obtain ⟨found, list, -⟩ := find?_of_record here
    obtain ⟨found', -, -⟩ := find?_of_record there
    have failed : ∀ {k : Heap} {z q}, k.find? z = some q → q.tag ≠ .seglist →
        k.segListRecord z = .error (.mismatch .seglist q.tag) := by
      intro k z q live other
      rw [segListRecord, payload_ok live]
      cases q with
      | seglist r => exact absurd rfl other
      | _ => rfl
    have error := failed found list
    have error' := failed found' (by rwa [Payload.tag_map])
    rw [Payload.tag_map] at error'
    rw [SegList.get, SegList.get, SegList.locate, SegList.locate, bind_assoc, bind_assoc]
    exact agree_inspect_error mirrors error error'
  | items xs =>
    obtain ⟨m₁, read, glanced⟩ := SegList.run_get mirrors.sound here i
    obtain ⟨m₂, read', glanced'⟩ := SegList.run_get mirrors.sound' there i
    have grown := SegList.isSegmental_get s i m
    have grown' := SegList.isSegmental_get (φ.partner s) i m'
    rw [read] at grown
    rw [read'] at grown'
    rw [read, read', List.getElem?_map]
    cases picked : xs[i]? with
    | none =>
      refine agree_glanced mirrors id rfl glanced glanced' grown grown' fun _ same => ?_
      cases same
    | some x =>
      refine agree_glanced mirrors φ.partner rfl glanced glanced' grown grown' fun a same rooted kept => ?_
      cases same
      obtain ⟨covered', partner⟩ := kept x (refs x (List.mem_of_getElem? picked))
      exact ⟨covered', partner, rooted, kept⟩

/-- What is not a list fails alike. -/
theorem Mirrors.list_cases (mirrors : φ.Mirrors h g) (list : φ.covers l) :
    (∃ e, h.listRecord l = .error e ∧ g.listRecord (φ.partner l) = .error e) ∨ ∃ s xs, h.HasItems l s xs := by
  cases record : h.listRecord l with
  | error e =>
    refine .inl ⟨e, rfl, ?_⟩
    rw [mirrors.listRecord list, record]
    rfl
  | ok r =>
    obtain ⟨xs, has⟩ := mirrors.sound.hasItems (listRecord_eq_ok_iff.1 record)
    exact .inr ⟨_, xs, has⟩

/-- An update that may need a chunk. -/
theorem agree_effect {op op' : HeapM Unit} {full full' : Heap → Prop} (mirrors : φ.Mirrors m.heap m'.heap) (list : φ.covers l)
    (has : m.heap.HasItems l s xs) (elements : ∀ y ∈ ys, φ.covers y)
    (left : Effect (Own l s) m.heap full (fun k => k.HasItems l s ys) (op.run m))
    (right : Effect (Own (φ.partner l) (φ.partner s)) m'.heap full'
      (fun k => k.HasItems (φ.partner l) (φ.partner s) (ys.map φ.partner)) (op'.run m'))
    (segmental : IsSegmental op) (segmental' : IsSegmental op')
    (keeps : ∀ a, (op.run m).1 = .ok a → ∀ y, m.heap.Anchored y → (op.run m).2.heap.Anchored y)
    (keeps' : ∀ a, (op'.run m').1 = .ok a → ∀ y, m'.heap.Anchored y → (op'.run m').2.heap.Anchored y) :
    φ.Agree m m' (fun _ _ φ' h' _ => φ.KeepsRooted m.heap φ' h') (op.run m) (op'.run m') := by
  have grown := segmental m
  have grown' := segmental' m'
  generalize op.run m = result at left grown keeps
  generalize op'.run m' = result' at right grown' keeps'
  cases left with
  | noRoom memory => exact .exhausted memory
  | done altered after =>
    cases right with
    | noRoom memory => exact .exhausted' memory
    | done altered' after' =>
      exact .done (mirrors.items_updated list has altered altered' after after' elements)
        (continues_within grown grown' mirrors.sound.accounted mirrors.sound'.accounted)
        (mirrors.keepsRooted (keeps () rfl) (keeps' () rfl))

/-- An update that neither fails nor collects. -/
theorem agree_changed {op op' : HeapM Unit} (mirrors : φ.Mirrors m.heap m'.heap) (list : φ.covers l)
    (has : m.heap.HasItems l s xs) (elements : ∀ y ∈ ys, φ.covers y)
    (left : ∃ m₁, op.run m = (.ok (), m₁) ∧ Altered (Own l s) m.heap m₁.heap ∧ m₁.heap.HasItems l s ys)
    (right : ∃ m₂, op'.run m' = (.ok (), m₂) ∧ Altered (Own (φ.partner l) (φ.partner s)) m'.heap m₂.heap ∧
      m₂.heap.HasItems (φ.partner l) (φ.partner s) (ys.map φ.partner))
    (segmental : IsSegmental op) (segmental' : IsSegmental op')
    (keeps : ∀ a, (op.run m).1 = .ok a → ∀ y, m.heap.Element y → (op.run m).2.heap.Element y)
    (keeps' : ∀ a, (op'.run m').1 = .ok a → ∀ y, m'.heap.Element y → (op'.run m').2.heap.Element y) :
    φ.Agree m m' (fun _ _ φ' _ _ => φ.Keeps φ') (op.run m) (op'.run m') := by
  obtain ⟨m₁, ran, altered, after⟩ := left
  obtain ⟨m₂, ran', altered', after'⟩ := right
  have grown := segmental m
  have grown' := segmental' m'
  rw [ran] at grown keeps
  rw [ran'] at grown' keeps'
  rw [ran, ran']
  exact .done (mirrors.items_updated list has altered altered' after after' elements)
    (continues_within grown grown' mirrors.sound.accounted mirrors.sound'.accounted)
    (mirrors.keeps (keeps () rfl) (keeps' () rfl))

theorem agree_append (mirrors : φ.Mirrors m.heap m'.heap) (list : φ.covers l) (rooted : m.heap.Rooted l)
    (covered : φ.covers x) :
    φ.Agree m m' (fun _ _ φ' h' _ => φ.KeepsRooted m.heap φ' h')
      ((ListObject.append l x).run m) ((ListObject.append (φ.partner l) (φ.partner x)).run m') := by
  rcases mirrors.list_cases list with ⟨e, error, error'⟩ | ⟨s, xs, has⟩
  · exact agree_inspect_error mirrors error error'
  · obtain ⟨has', -, elements⟩ := mirrors.hasItems list has
    obtain ⟨live, live'⟩ := mirrors.element covered
    have anchored := mirrors.anchored_partner list rooted
    have right := ListObject.append_effect mirrors.sound' has' anchored.1 live'
    rw [show xs.map φ.partner ++ [φ.partner x] = (xs ++ [x]).map φ.partner by simp] at right
    refine agree_effect mirrors list has ?_ (ListObject.append_effect mirrors.sound has rooted live) right
      (ListObject.isSegmental_append l x) (ListObject.isSegmental_append _ _)
      (ListObject.append_anchored mirrors.sound ⟨rooted, has.element⟩ live)
      (ListObject.append_anchored mirrors.sound' anchored live')
    intro y member
    exact (List.mem_append.1 member).elim (elements y) fun new => List.mem_singleton.1 new ▸ covered

theorem agree_insert (mirrors : φ.Mirrors m.heap m'.heap) (list : φ.covers l) (rooted : m.heap.Rooted l)
    (covered : φ.covers x) (index : Int) :
    φ.Agree m m' (fun _ _ φ' h' _ => φ.KeepsRooted m.heap φ' h')
      ((ListObject.insert l index x).run m) ((ListObject.insert (φ.partner l) index (φ.partner x)).run m') := by
  rcases mirrors.list_cases list with ⟨e, error, error'⟩ | ⟨s, xs, has⟩
  · exact agree_inspect_error mirrors error error'
  · obtain ⟨has', -, elements⟩ := mirrors.hasItems list has
    obtain ⟨live, live'⟩ := mirrors.element covered
    have anchored := mirrors.anchored_partner list rooted
    have right := ListObject.insert_effect mirrors.sound' has' anchored.1 live' index
    rw [List.length_map, ← List.map_insertIdx] at right
    refine agree_effect mirrors list has ?_ (ListObject.insert_effect mirrors.sound has rooted live index) right
      (ListObject.isSegmental_insert l index x) (ListObject.isSegmental_insert _ _ _)
      (ListObject.insert_anchored mirrors.sound ⟨rooted, has.element⟩ live index)
      (ListObject.insert_anchored mirrors.sound' anchored live' index)
    intro y member
    rcases List.mem_cons.1 ((List.perm_insertIdx x xs (Position.clamp_le index (Nat.zero_le _))).mem_iff.1 member) with rfl | old
    · exact covered
    · exact elements y old

/-- An index that names no element fails alike. -/
theorem agree_position_error {f f' : ListRecord → Nat → HeapM Unit} (mirrors : φ.Mirrors m.heap m'.heap) (list : φ.covers l)
    (has : m.heap.HasItems l s xs) (absent : Position.element? index xs.length = none) :
    φ.Agree m m' (fun _ _ φ' _ _ => φ.Keeps φ')
      ((do let r ← inspect fun h => h.listRecord l; let i ← ListObject.position r index; f r i).run m)
      ((do let r ← inspect fun h => h.listRecord (φ.partner l); let i ← ListObject.position r index; f' r i).run m') := by
  have has' := (mirrors.hasItems list has).1
  rw [run_bind_ok (ListObject.run_record has), run_bind_ok (ListObject.run_record has'),
    run_bind_error (ListObject.run_position_error (r := ⟨xs.length, s⟩) absent),
    run_bind_error (ListObject.run_position_error (r := ⟨(xs.map φ.partner).length, φ.partner s⟩) (by rwa [List.length_map]))]
  exact .failed mirrors (.refl φ m m')

theorem agree_set (mirrors : φ.Mirrors m.heap m'.heap) (list : φ.covers l) (covered : φ.covers x) (index : Int) :
    φ.Agree m m' (fun _ _ φ' _ _ => φ.Keeps φ')
      ((ListObject.set l index x).run m) ((ListObject.set (φ.partner l) index (φ.partner x)).run m') := by
  rcases mirrors.list_cases list with ⟨e, error, error'⟩ | ⟨s, xs, has⟩
  · exact agree_inspect_error mirrors error error'
  · obtain ⟨has', -, elements⟩ := mirrors.hasItems list has
    obtain ⟨live, live'⟩ := mirrors.element covered
    cases named : Position.element? index xs.length with
    | none => exact agree_position_error mirrors list has named
    | some i =>
      have right := ListObject.set_effect mirrors.sound' has' live' (by rwa [List.length_map])
      rw [← List.map_set] at right
      refine agree_changed mirrors list has ?_ (ListObject.set_effect mirrors.sound has live named) right
        (ListObject.isSegmental_set l index x) (ListObject.isSegmental_set _ _ _)
        (ListObject.set_elements l index mirrors.sound live) (ListObject.set_elements _ index mirrors.sound' live')
      intro y member
      exact (List.mem_or_eq_of_mem_set member).elim (elements y) fun same => same ▸ covered

theorem agree_removeAt (mirrors : φ.Mirrors m.heap m'.heap) (list : φ.covers l) (index : Int) :
    φ.Agree m m' (fun _ _ φ' _ _ => φ.Keeps φ')
      ((ListObject.removeAt l index).run m) ((ListObject.removeAt (φ.partner l) index).run m') := by
  rcases mirrors.list_cases list with ⟨e, error, error'⟩ | ⟨s, xs, has⟩
  · exact agree_inspect_error mirrors error error'
  · obtain ⟨has', -, elements⟩ := mirrors.hasItems list has
    cases named : Position.element? index xs.length with
    | none => exact agree_position_error mirrors list has named
    | some i =>
      have right := ListObject.removeAt_effect mirrors.sound' has' (by rwa [List.length_map])
      rw [List.eraseIdx_map] at right
      exact agree_changed mirrors list has (fun y member => elements y (List.mem_of_mem_eraseIdx member))
        (ListObject.removeAt_effect mirrors.sound has named) right
        (ListObject.isSegmental_removeAt l index) (ListObject.isSegmental_removeAt _ _) (ListObject.removeAt_elements l index mirrors.sound)
        (ListObject.removeAt_elements _ index mirrors.sound')

theorem agree_clear (mirrors : φ.Mirrors m.heap m'.heap) (list : φ.covers l) :
    φ.Agree m m' (fun _ _ φ' _ _ => φ.Keeps φ') ((ListObject.clear l).run m) ((ListObject.clear (φ.partner l)).run m') := by
  rcases mirrors.list_cases list with ⟨e, error, error'⟩ | ⟨s, xs, has⟩
  · exact agree_inspect_error mirrors error error'
  · have has' := (mirrors.hasItems list has).1
    exact agree_changed mirrors list has (List.forall_mem_nil _) (ListObject.clear_effect mirrors.sound has)
      (ListObject.clear_effect mirrors.sound' has') (ListObject.isSegmental_clear l) (ListObject.isSegmental_clear _)
      (ListObject.clear_elements l mirrors.sound) (ListObject.clear_elements _ mirrors.sound')

/-! ### Reading -/

theorem agree_get (mirrors : φ.Mirrors m.heap m'.heap) (list : φ.covers l) (index : Int) :
    φ.Agree m m' (fun x x' φ' _ _ => φ'.covers x ∧ φ'.partner x = x')
      ((ListObject.get l index).run m) ((ListObject.get (φ.partner l) index).run m') := by
  rcases mirrors.list_cases list with ⟨e, error, error'⟩ | ⟨s, xs, has⟩
  · exact agree_inspect_error mirrors error error'
  · obtain ⟨has', -, elements⟩ := mirrors.hasItems list has
    obtain ⟨m₁, read, glanced, -⟩ := ListObject.run_get mirrors.sound has index
    obtain ⟨m₂, read', glanced', -⟩ := ListObject.run_get mirrors.sound' has' index
    have grown := ListObject.isSegmental_get l index m
    have grown' := ListObject.isSegmental_get (φ.partner l) index m'
    rw [read] at grown
    rw [read'] at grown'
    rw [read, read', List.length_map]
    refine agree_glanced mirrors φ.partner ?_ glanced glanced' grown grown' fun x got _ kept => ?_
    · cases Position.element? index xs.length with
      | none => rfl
      | some i =>
        simp only [Option.bind_some, List.getElem?_map]
        cases xs[i]? <;> rfl
    · refine kept x ?_
      cases named : Position.element? index xs.length with
      | none =>
        rw [named] at got
        cases got
      | some i =>
        rw [named, Option.bind_some] at got
        cases picked : xs[i]? with
        | none =>
          rw [picked] at got
          cases got
        | some y =>
          rw [picked] at got
          cases got
          exact elements _ (List.mem_of_getElem? picked)

theorem search_map {test test' : Handle → Except Error Bool} {f : Handle → Handle} {xs : List Handle}
    (same : ∀ x ∈ xs, test' (f x) = test x) : search test' (xs.map f) = search test xs := by
  induction xs with
  | nil => rfl
  | cons x xs ih =>
    rw [List.map_cons, search, search, same x List.mem_cons_self, ih fun y member => same y (List.mem_cons_of_mem x member)]

/-- A search for a value goes as the search for its partner. -/
theorem Mirrors.search (mirrors : φ.Mirrors h g) (covered : φ.covers x) (elements : ∀ y ∈ xs, φ.covers y) :
    ChunkHeap.search (g.sameAs (φ.partner x)) (xs.map φ.partner) = ChunkHeap.search (h.sameAs x) xs :=
  search_map fun y member => by rw [sameAs, sameAs, mirrors.compare (elements y member) covered]

theorem agree_indexOf (mirrors : φ.Mirrors m.heap m'.heap) (list : φ.covers l) (covered : φ.covers x) :
    φ.Agree m m' (fun i i' φ' _ _ => i' = i ∧ φ.Keeps φ')
      ((ListObject.indexOf l x).run m) ((ListObject.indexOf (φ.partner l) (φ.partner x)).run m') := by
  rcases mirrors.list_cases list with ⟨e, error, error'⟩ | ⟨s, xs, has⟩
  · exact agree_inspect_error mirrors error error'
  · obtain ⟨has', -, elements⟩ := mirrors.hasItems list has
    obtain ⟨live, live'⟩ := mirrors.element covered
    obtain ⟨m₁, read, glanced⟩ := ListObject.run_indexOf mirrors.sound has live
    obtain ⟨m₂, read', glanced'⟩ := ListObject.run_indexOf mirrors.sound' has' live'
    have grown := ListObject.isSegmental_indexOf l x m
    have grown' := ListObject.isSegmental_indexOf (φ.partner l) (φ.partner x) m'
    rw [read] at grown
    rw [read'] at grown'
    rw [read, read', mirrors.search covered elements]
    refine agree_glanced mirrors id ?_ glanced glanced' grown grown' fun i _ _ kept => ⟨rfl, kept⟩
    cases (ChunkHeap.search (m.heap.sameAs x) xs).bind fun found => found.elim (.error .notInList) .ok <;> rfl

theorem agree_remove (mirrors : φ.Mirrors m.heap m'.heap) (list : φ.covers l) (covered : φ.covers x) :
    φ.Agree m m' (fun _ _ _ _ _ => True)
      ((ListObject.remove l x).run m) ((ListObject.remove (φ.partner l) (φ.partner x)).run m') := by
  refine (agree_indexOf mirrors list covered).bind fun i i' φ₁ m₁ m₂ mirrored ⟨same, kept⟩ => ?_
  obtain ⟨list', partner⟩ := kept l list
  rw [same, ← partner]
  exact (agree_removeAt mirrored list' i).mono fun _ _ _ _ _ _ _ => trivial

/-! ### Making lists -/

/-- An empty list. -/
theorem agree_newList (mirrors : φ.Mirrors m.heap m'.heap) :
    φ.Agree m m' (fun x x' φ' h' _ => φ'.covers x ∧ φ'.partner x = x' ∧ φ.KeepsRooted m.heap φ' h')
      (ListObject.new.run m) (ListObject.new.run m') := by
  have blank : HeapM.Keeps false (fun _ => True) _ SegList.new _ := keeps_allocateBlank (fun _ => False) []
  have made : ∀ m : Machine, m.heap.Sound none → ∀ s, (SegList.new.run m).1 = .ok s → (SegList.new.run m).2.heap.Blank s :=
    fun m sound s done =>
      ((blank m sound ⟨List.forall_mem_nil _, fun _ none => none.elim⟩).2 s done).1 s List.mem_cons_self
  have storage : φ.Agree m m' _ (SegList.new.run m) (SegList.new.run m') :=
    agree_allocatePinned (.seglist {}) [] mirrors (List.forall_mem_nil _) (List.forall_mem_nil _) (placeable_storage _) (placeable_storage _)
  have known := storage.knowing (P := fun s k => k.Blank s) (Q := fun s k => k.Blank s) (made m mirrors.sound)
    (made m' mirrors.sound')
  refine known.bind fun s s' φ₁ m₁ m₂ mirrored known' => ?_
  obtain ⟨⟨covered, partner, rooted, -⟩, here, there⟩ := known'
  subst partner
  have places : ∀ {k : Heap} {t : Handle}, k.Blank t → Placeable (.list ⟨0, t⟩) k := fun {k t} blank =>
    placeable_container (fun y member => List.mem_singleton.1 member ▸ blank) (by simp [Payload.storages]) rfl rfl
      (by simp [Payload.tag]) (by simp [Payload.tag])
  have container := agree_allocatePinned (.list ⟨0, s⟩) [] mirrored
    (fun y ref => List.mem_singleton.1 ref ▸ covered) (List.forall_mem_nil _) (places here) (places there)
  refine container.mono fun x x' φ' h' _ _ ends => ?_
  obtain ⟨covered, partner, later, -⟩ := ends
  exact ⟨covered, partner, rooted.trans later⟩

theorem agree_copyEvery {storage target storage' target' : Handle} (step count i : Nat) (mirrors : φ.Mirrors m.heap m'.heap)
    (source : φ.Binds m.heap storage storage') (list : φ.Binds m.heap target target') :
    φ.Agree m m' (fun _ _ φ' h' _ => φ'.Binds h' storage storage' ∧ φ'.Binds h' target target')
      ((ListObject.copyEvery storage target step count i).run m) ((ListObject.copyEvery storage' target' step count i).run m') := by
  induction count generalizing φ m m' i with
  | zero => exact agree_pure mirrors ⟨source, list⟩
  | succ count ih =>
    have read := agree_segListGet mirrors source.covered i
    rw [source.partner] at read
    refine read.bind fun x x' φ₁ m₁ m₂ mirrored ⟨covered, partner, rooted, _⟩ => ?_
    have list' := rooted _ _ list
    have added := agree_append mirrored list'.covered list'.rooted covered
    rw [list'.partner, partner] at added
    refine added.bind fun _ _ φ₂ m₃ m₄ mirrored' later => ?_
    exact ih (i + step) mirrored' (later _ _ (rooted _ _ source)) (later _ _ list')

/-- A list made in a construction that fills it with elements of a storage. -/
theorem agree_filled {storage storage' : Handle} {fill fill' : Handle → HeapM Unit} (mirrors : φ.Mirrors m.heap m'.heap)
    (source : φ.Binds m.heap storage storage')
    (fills : ∀ (φ : Pairing) (m m' : Machine) (target target' : Handle), φ.Mirrors m.heap m'.heap → φ.Binds m.heap storage storage' →
      φ.Binds m.heap target target' →
      φ.Agree m m' (fun _ _ φ' h' _ => φ'.Binds h' storage storage' ∧ φ'.Binds h' target target')
        ((fill target).run m) ((fill' target').run m')) :
    φ.Agree m m' (fun x x' φ' _ _ => φ'.covers x ∧ φ'.partner x = x')
      ((guarded do let result ← ListObject.new; protect result; fill result; return result).run m)
      ((guarded do let result ← ListObject.new; protect result; fill' result; return result).run m') := by
  refine Agree.guarded mirrors (fun entered => ?_) fun _ _ _ _ _ _ _ ends => ends
  have source' : φ.Binds (m.mapRoots RootSet.enter).heap storage storage' :=
    ⟨source.covered, source.partner, source.rooted.rerooted (List.Subset.refl _)⟩
  refine (agree_newList entered).bind fun x x' φ₁ m₁ m₂ mirrored made => ?_
  obtain ⟨covered, partner, rooted⟩ := made
  have protected_ := agree_protect mirrored covered
  rw [partner] at protected_
  refine protected_.bind fun _ _ φ₂ m₃ m₄ mirrored' rooting => ?_
  obtain ⟨same, heap⟩ := rooting
  subst same
  have wider : m₁.heap.roots.toList ⊆ (m₁.heap.roots.protect x).toList := by
    intro y root
    simp only [RootSet.toList, RootSet.protect, List.mem_append] at root ⊢
    exact root.imp_right .inl
  have source'' := rooted _ _ source'
  have still : φ₂.Binds m₃.heap storage storage' := by
    rw [heap]
    exact ⟨source''.covered, source''.partner, source''.rooted.rerooted wider⟩
  have target : φ₂.Binds m₃.heap x x' := by
    rw [heap]
    exact ⟨covered, partner, .start (by simp [collectionRoots, RootSet.toList, RootSet.protect])⟩
  refine (fills φ₂ m₃ m₄ x x' mirrored' still target).bind fun _ _ φ₃ m₅ m₆ mirrored'' filled => ?_
  exact agree_pure mirrored'' ⟨filled.2.covered, filled.2.partner⟩

theorem Mirrors.binds_storage (mirrors : φ.Mirrors h g) (list : φ.covers l) (rooted : h.Rooted l) (has : h.HasItems l s xs) :
    φ.Binds h s (φ.partner s) :=
  ⟨(mirrors.hasItems list has).2.1, rfl, has.rooted_storage rooted⟩

theorem agree_replicate (mirrors : φ.Mirrors m.heap m'.heap) (list : φ.covers l) (rooted : m.heap.Rooted l) (count : Int) :
    φ.Agree m m' (fun x x' φ' _ _ => φ'.covers x ∧ φ'.partner x = x')
      ((ListObject.replicate l count).run m) ((ListObject.replicate (φ.partner l) count).run m') := by
  rcases mirrors.list_cases list with ⟨e, error, error'⟩ | ⟨s, xs, has⟩
  · exact agree_inspect_error mirrors error error'
  · have has' := (mirrors.hasItems list has).1
    rw [ListObject.replicate, ListObject.replicate, run_bind_ok (ListObject.run_record has),
      run_bind_ok (ListObject.run_record has')]
    simp only [List.length_map]
    refine agree_filled mirrors (mirrors.binds_storage list rooted has) fun ψ k k' target target' mirrored source bound => ?_
    exact agree_times (fun ψ k k' mirrored ⟨source, bound⟩ => agree_copyEvery 1 _ 0 mirrored source bound) _ mirrored
      ⟨source, bound⟩

theorem agree_extract {storage storage' : Handle} (mirrors : φ.Mirrors m.heap m'.heap) (source : φ.Binds m.heap storage storage')
    (step count i : Nat) :
    φ.Agree m m' (fun x x' φ' _ _ => φ'.covers x ∧ φ'.partner x = x')
      ((ListObject.extract storage step count i).run m) ((ListObject.extract storage' step count i).run m') :=
  agree_filled mirrors source fun _ _ _ _ _ mirrored source target => agree_copyEvery step count i mirrored source target

theorem agree_slice (mirrors : φ.Mirrors m.heap m'.heap) (list : φ.covers l) (rooted : m.heap.Rooted l) (start stop step : Int) :
    φ.Agree m m' (fun x x' φ' _ _ => φ'.covers x ∧ φ'.partner x = x')
      ((ListObject.slice l start stop step).run m) ((ListObject.slice (φ.partner l) start stop step).run m') := by
  rw [ListObject.slice_eq, ListObject.slice_eq]
  rcases mirrors.list_cases list with ⟨e, error, error'⟩ | ⟨s, xs, has⟩
  · exact agree_inspect_error mirrors error error'
  · have has' := (mirrors.hasItems list has).1
    rw [run_bind_ok (ListObject.run_record has), run_bind_ok (ListObject.run_record has'), List.length_map]
    cases Position.checkStep step with
    | error e => exact agree_inspect_error mirrors rfl rfl
    | ok n =>
      rw [run_bind_ok (run_inspect (fun _ => .ok n) m), run_bind_ok (run_inspect (fun _ => .ok n) m')]
      exact agree_extract mirrors (mirrors.binds_storage list rooted has) n _ _

theorem agree_sliceBy {bounds : Handle} (mirrors : φ.Mirrors m.heap m'.heap) (list : φ.covers l) (rooted : m.heap.Rooted l)
    (slice : φ.covers bounds) :
    φ.Agree m m' (fun x x' φ' _ _ => φ'.covers x ∧ φ'.partner x = x')
      ((ListObject.sliceBy l bounds).run m) ((ListObject.sliceBy (φ.partner l) (φ.partner bounds)).run m') := by
  have counted : φ.Agree m m' (fun n n' ψ h _ => n' = n ∧ ψ = φ ∧ h = m.heap) ((inspect fun h => h.listLength l).run m)
      ((inspect fun h => h.listLength (φ.partner l)).run m') := by
    refine agree_inspect id mirrors ?_ fun n _ => ⟨rfl, rfl, rfl⟩
    rw [listLength, listLength, mirrors.listRecord list]
    cases m.heap.listRecord l <;> rfl
  refine counted.bind fun n n' φ₁ m₁ m₂ mirrored unchanged => ?_
  obtain ⟨same, pairing, heap⟩ := unchanged
  subst same pairing
  have indices : φ₁.Agree m₁ m₂ (fun t t' ψ h _ => t' = t ∧ ψ = φ₁ ∧ h = m₁.heap) ((inspect fun h => h.sliceIndices bounds n').run m₁)
      ((inspect fun h => h.sliceIndices (φ₁.partner bounds) n').run m₂) := by
    refine agree_inspect id mirrored ?_ fun t _ => ⟨rfl, rfl, rfl⟩
    rw [mirrored.sliceIndices slice]
    cases m₁.heap.sliceIndices bounds n' <;> rfl
  refine indices.bind fun t t' φ₂ m₃ m₄ mirrored' unchanged => ?_
  obtain ⟨same', pairing', heap'⟩ := unchanged
  subst same' pairing'
  exact agree_slice mirrored' list (by rwa [heap', heap]) _ _ _

/-! ### Storing into a slice -/

theorem agree_storeFrom {l' : Handle} {items' : List Handle} (mirrors : φ.Mirrors m.heap m'.heap) (list : φ.covers l)
    (partner : φ.partner l = l') (elements : ∀ y ∈ items, φ.covers y) (partners : items.map φ.partner = items') (i : Nat) :
    φ.Agree m m' (fun _ _ _ _ _ => True)
      ((ListObject.storeFrom l i items).run m) ((ListObject.storeFrom l' i items').run m') := by
  subst partner partners
  induction items generalizing φ m m' i with
  | nil => exact agree_pure mirrors trivial
  | cons x items ih =>
    refine (agree_set mirrors list (elements x List.mem_cons_self) i).bind fun _ _ φ₁ m₁ m₂ mirrored kept => ?_
    have later : ∀ y ∈ items, φ.covers y := fun y member => elements y (List.mem_cons_of_mem x member)
    have same : items.map φ.partner = items.map φ₁.partner :=
      List.map_congr_left fun y member => (kept y (later y member)).2.symm
    rw [← (kept l list).2, same]
    exact ih mirrored (kept l list).1 (fun y member => (kept y (later y member)).1) (i + 1)

theorem agree_protectAll (mirrors : φ.Mirrors m.heap m'.heap) (elements : ∀ y ∈ items, φ.covers y) :
    φ.Agree m m' (fun _ _ φ' h' _ => φ.KeepsRooted m.heap φ' h')
      ((forEach protect items).run m) ((forEach protect (items.map φ.partner)).run m') := by
  induction items generalizing m m' with
  | nil => exact agree_pure mirrors (.refl _ _)
  | cons x items ih =>
    refine (agree_protect mirrors (elements x List.mem_cons_self)).bind fun _ _ φ₁ m₁ m₂ mirrored ⟨same, heap⟩ => ?_
    subst same
    refine (ih mirrored fun y member => elements y (List.mem_cons_of_mem x member)).mono fun _ _ φ₂ h' _ _ later y z binds => ?_
    refine later y z ⟨binds.covered, binds.partner, ?_⟩
    rw [heap]
    refine binds.rooted.rerooted fun w root => ?_
    simp only [RootSet.toList, RootSet.protect, List.mem_append] at root ⊢
    exact root.imp_right .inl

theorem agree_keepOwn (mirrors : φ.Mirrors m.heap m'.heap) (list : φ.covers l) (supplier : φ.covers source)
    (elements : ∀ y ∈ items, φ.covers y) :
    φ.Agree m m' (fun _ _ φ' h' _ => φ.KeepsRooted m.heap φ' h') ((ListObject.keepOwn l source items).run m)
      ((ListObject.keepOwn (φ.partner l) (φ.partner source) (items.map φ.partner)).run m') := by
  rw [ListObject.keepOwn, ListObject.keepOwn]
  by_cases own : source = l
  · rw [if_pos own, if_pos (congrArg φ.partner own)]
    exact agree_protectAll mirrors elements
  · rw [if_neg own, if_neg fun same => own (mirrors.injective source l supplier list same)]
    exact agree_pure mirrors (.refl _ _)

/-- The list shrinks or grows to its new length, and then takes the elements. -/
theorem agree_refill (mirrors : φ.Mirrors m.heap m'.heap) (list : φ.covers l) (rooted : m.heap.Rooted l)
    (supplier : φ.covers source) (elements : ∀ y ∈ items, φ.covers y ∧ m.heap.Rooted y) (surplus missing start : Nat)
    (one : surplus = 0 ∨ missing = 0) :
    φ.Agree m m' (fun _ _ _ _ _ => True)
      ((ListObject.refill l source items surplus missing start).run m)
      ((ListObject.refill (φ.partner l) (φ.partner source) (items.map φ.partner) surplus missing start).run m') := by
  refine Agree.guarded mirrors (fun entered => ?_) fun _ _ _ _ _ _ _ ends => ends
  have enter : ∀ {y}, m.heap.Rooted y → (m.mapRoots RootSet.enter).heap.Rooted y := fun rooted =>
    rooted.rerooted (List.Subset.refl _)
  refine (agree_keepOwn entered list supplier fun y member => (elements y member).1).bind
    fun _ _ φ₁ m₁ m₂ mirrored kept => ?_
  have target : φ₁.Binds m₁.heap l (φ.partner l) := kept _ _ ⟨list, rfl, enter rooted⟩
  have held : ∀ y ∈ items, φ₁.Binds m₁.heap y (φ.partner y) := fun y member =>
    kept y _ ⟨(elements y member).1, rfl, enter (elements y member).2⟩
  rw [run_bind_ok (run_heap m₁), run_bind_ok (run_heap m₂)]
  rcases one with rfl | rfl
  · -- while the list grows, what is within reach stays so
    have root : m₁.heap.constants.none ∈ m₁.heap.collectionRoots [] := by simp [collectionRoots, Constants.toList]
    have filler : φ₁.Binds m₁.heap m₁.heap.constants.none m₂.heap.constants.none :=
      ⟨mirrored.covered _ root, by rw [mirrored.constants]; rfl, .start root⟩
    have grown : φ₁.Agree m₁ m₂ (fun _ _ ψ k _ => φ₁.KeepsRooted m₁.heap ψ k)
        ((times missing (ListObject.insert l start m₁.heap.constants.none)).run m₁)
        ((times missing (ListObject.insert (φ.partner l) start m₂.heap.constants.none)).run m₂) := by
      refine agree_times (fun ψ k k' mirrored' still => ?_) missing mirrored (.refl _ _)
      have list' := still _ _ target
      have none := still _ _ filler
      have inserted := agree_insert mirrored' list'.covered list'.rooted none.covered start
      rw [list'.partner, none.partner] at inserted
      exact inserted.mono fun _ _ _ _ _ _ later => still.trans later
    rw [times, times, pure_bind, pure_bind]
    refine grown.bind fun _ _ ψ k k' mirrored' still => ?_
    have list' := still _ _ target
    have held' : ∀ y ∈ items, ψ.Binds k.heap y (φ.partner y) := fun y member => still y _ (held y member)
    exact agree_storeFrom mirrored' list'.covered list'.partner (fun y member => (held' y member).covered)
      (List.map_congr_left fun y member => (held' y member).partner) start
  · -- while it shrinks, nothing is collected
    have shrunk : φ₁.Agree m₁ m₂ (fun _ _ ψ _ _ => φ₁.Keeps ψ) ((times surplus (ListObject.removeAt l start)).run m₁)
        ((times surplus (ListObject.removeAt (φ.partner l) start)).run m₂) := by
      refine agree_times (fun ψ k k' mirrored' still => ?_) surplus mirrored (.refl _)
      obtain ⟨list', partner⟩ := still l target.covered
      have removed := agree_removeAt mirrored' list' start
      rw [partner, target.partner] at removed
      exact removed.mono fun _ _ _ _ _ _ later => still.trans later
    refine shrunk.bind fun _ _ ψ k k' mirrored' still => ?_
    have held' : ∀ y ∈ items, ψ.covers y ∧ ψ.partner y = φ.partner y := fun y member =>
      ⟨(still y (held y member).covered).1, (still y (held y member).covered).2.trans (held y member).partner⟩
    obtain ⟨list', partner⟩ := still l target.covered
    rw [times, times, pure_bind, pure_bind]
    exact agree_storeFrom mirrored' list' (partner.trans target.partner) (fun y member => (held' y member).1)
      (List.map_congr_left fun y member => (held' y member).2) start

theorem agree_storeSlice (mirrors : φ.Mirrors m.heap m'.heap) (list : φ.covers l) (rooted : m.heap.Rooted l)
    (supplier : φ.covers source) (supply : m.heap.Rooted source) (start stop : Int) :
    φ.Agree m m' (fun _ _ _ _ _ => True)
      ((ListObject.storeSlice l start stop source).run m)
      ((ListObject.storeSlice (φ.partner l) start stop (φ.partner source)).run m') := by
  rw [ListObject.storeSlice_eq, ListObject.storeSlice_eq]
  rcases mirrors.list_cases list with ⟨e, error, error'⟩ | ⟨s, xs, has⟩
  · exact agree_inspect_error mirrors error error'
  have has' := (mirrors.hasItems list has).1
  rw [run_bind_ok (ListObject.run_record has), run_bind_ok (ListObject.run_record has'), List.length_map]
  have read' := mirrors.sequenceItems supplier
  cases read : m.heap.sequenceItems source with
  | error e =>
    rw [read] at read'
    exact agree_inspect_error mirrors read read'
  | ok items =>
    rw [read] at read'
    rw [run_bind_ok (run_inspect_ok read), run_bind_ok (run_inspect_ok read'), List.length_map]
    refine agree_refill mirrors list rooted supplier (fun y member => ?_) _ _ _ (by omega)
    have found := mirrors.sound.found_sequenceItems read y member
    exact ⟨(mirrors.rooted ⟨found.2 supply, found.1⟩).1, found.2 supply⟩

end Pairing

end ChunkHeap

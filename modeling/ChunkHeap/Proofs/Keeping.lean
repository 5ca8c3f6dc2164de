import ChunkHeap.Proofs.Reach

/-!
# What operations keep

`Heap.Kept` relates the heaps before and after an operation on a sound heap: the
heap is sound again, the roots are the same but for objects kept by a construction
under way, and what the roots lead to around the objects that were written is
untouched. `HeapM.Keeps` says so of an operation, whether it succeeds or fails,
together with a pre- and a postcondition, and has a rule for each way in which
operations are put together.
-/

namespace ChunkHeap
set_option autoImplicit false

namespace Heap

variable {h g k : Heap} {x y : Handle} {building : Bool} {S T : Handle → Prop}

/-- From `h` to the sound heap `g` objects of `S` may have been written, and while
`building` further objects kept. -/
structure Kept (building : Bool) (S : Handle → Prop) (h g : Heap) : Prop where
  sound : g.Sound none
  constants : g.constants = h.constants
  roots : ∃ more, g.roots = { h.roots with inFlight := h.roots.inFlight ++ more } ∧ (building = false → more = [])
  confined : Confined S h g

theorem Upkeep.kept (upkeep : Upkeep h g) (sound : g.Sound none) (confined : Confined S h g) : Kept building S h g where
  sound := sound
  constants := upkeep.constants
  roots := ⟨[], by simp [upkeep.roots], fun _ => rfl⟩
  confined := confined

/-- Other roots, the same objects. -/
theorem confined_rerooted (h : Heap) (roots : RootSet) : Confined S h { h with roots := roots } :=
  fun _ p _ _ found => ⟨p, found, rfl⟩

theorem Rooted.rerooted {roots : RootSet} (rooted : h.Rooted x) (subset : h.roots.toList ⊆ roots.toList) :
    { h with roots := roots }.Rooted x := by
  refine reaches_mono ?_ rooted
  intro y member
  simp only [collectionRoots, List.append_nil, List.mem_append] at member ⊢
  exact member.imp_left fun root => subset root

theorem Anchored.rerooted {roots : RootSet} (anchored : h.Anchored x) (subset : h.roots.toList ⊆ roots.toList) :
    { h with roots := roots }.Anchored x :=
  ⟨anchored.1.rerooted subset, anchored.2⟩

namespace Kept

theorem refl (sound : h.Sound none) : Kept building S h h :=
  (Upkeep.refl h).kept sound (Glanced.refl h).confined

theorem toList_subset (kept : Kept building S h g) : h.roots.toList ⊆ g.roots.toList := by
  obtain ⟨more, roots, -⟩ := kept.roots
  rw [roots]
  intro x member
  simp only [RootSet.toList, List.mem_append] at member ⊢
  exact member.imp_right .inl

theorem roots_subset (kept : Kept building S h g) : h.collectionRoots [] ⊆ g.collectionRoots [] := by
  intro x member
  simp only [collectionRoots, kept.constants, List.append_nil, List.mem_append] at member ⊢
  exact member.imp_left fun root => kept.toList_subset root

theorem trans (first : Kept building S h g) (second : Kept building S g k) : Kept building S h k where
  sound := second.sound
  constants := second.constants.trans first.constants
  roots := by
    obtain ⟨more, roots, none⟩ := first.roots
    obtain ⟨more', roots', none'⟩ := second.roots
    refine ⟨more ++ more', by rw [roots', roots, List.append_assoc], fun done => ?_⟩
    rw [none done, none' done, List.append_nil]
  confined := first.confined.trans first.roots_subset second.confined

theorem widen (kept : Kept building S h g) (wider : ∀ x, S x → T x) : Kept building T h g :=
  { kept with confined := kept.confined.mono wider }

/-- An object that the roots lead to around what was written holds the same. -/
theorem find? {p : Payload} (kept : Kept building S h g) (around : Around S h x) (outside : ¬ S x)
    (found : h.find? x = some p) (tag : p.tag ≠ .seglist) : g.find? x = some p := by
  obtain ⟨q, live, same⟩ := kept.confined x p around outside found
  exact live.trans (congrArg some (Payload.eq_of_still same tag))

theorem around (kept : Kept building S h g) (around : Around S h x) : Around S g x :=
  kept.confined.around kept.roots_subset around

/-- Outside a construction the roots are as before. -/
theorem same_roots (kept : Kept false S h g) : g.roots = h.roots := by
  obtain ⟨more, roots, none⟩ := kept.roots
  rw [roots, none rfl, List.append_nil]

/-- What a construction has kept in addition is let go at its end. -/
theorem left (kept : Kept true S { h with roots := h.roots.enter } g) :
    Kept building S h { g with roots := g.roots.leave h.roots.inFlight.length } := by
  obtain ⟨more, roots, -⟩ := kept.roots
  have again : g.roots.leave h.roots.inFlight.length = h.roots := by
    rw [roots]
    simp [RootSet.leave, RootSet.enter]
  rw [again]
  refine ⟨kept.sound.rerooted fun x member => ?_, kept.constants, ⟨[], by simp, fun _ => rfl⟩, ?_⟩
  · exact kept.sound.roots x (kept.roots_subset (List.mem_append_left _ (List.mem_append_left _ member)))
  · have entering : Confined S h g :=
      (confined_rerooted h h.roots.enter).trans (List.Subset.refl _) kept.confined
    exact entering.trans kept.roots_subset (confined_rerooted g h.roots)

end Kept

/-- From one call to the next: the heap is sound, with the same constants and the
same objects under construction. -/
structure Settled (h g : Heap) : Prop where
  sound : g.Sound none
  constants : g.constants = h.constants
  inFlight : g.roots.inFlight = h.roots.inFlight

theorem Settled.refl (sound : h.Sound none) : Settled h h :=
  ⟨sound, rfl, rfl⟩

theorem Kept.settled (kept : Kept false S h g) : Settled h g :=
  ⟨kept.sound, kept.constants, by rw [kept.same_roots]⟩

theorem Settled.trans (first : Settled h g) (second : Settled g k) : Settled h k :=
  ⟨second.sound, second.constants.trans first.constants, second.inFlight.trans first.inFlight⟩

/-- A construction that has let others run ends as any other. -/
theorem settled_left {more : List Handle} (sound : g.Sound none) (constants : g.constants = h.constants)
    (inFlight : g.roots.inFlight = h.roots.inFlight ++ more) :
    Settled h { g with roots := g.roots.leave h.roots.inFlight.length } := by
  refine ⟨sound.rerooted fun x member => ?_, constants, by simp [RootSet.leave, inFlight]⟩
  refine sound.roots x ?_
  simp only [RootSet.toList, RootSet.leave, collectionRoots, List.mem_append, List.append_nil] at member ⊢
  exact .inl (member.imp_right List.mem_of_mem_take)

end Heap

namespace HeapM

open Heap

variable {α β : Type} {building : Bool} {S T : Handle → Prop} {pre pre' : Heap → Prop} {post post' : α → Heap → Prop}

/-- From a sound heap where `pre` holds the operation keeps what it should keep,
and if it succeeds its result satisfies `post`. -/
def Keeps (building : Bool) (S : Handle → Prop) (pre : Heap → Prop) (op : HeapM α) (post : α → Heap → Prop) : Prop :=
  ∀ m, m.heap.Sound none → pre m.heap →
    Kept building S m.heap (op.run m).2.heap ∧ ∀ a, (op.run m).1 = .ok a → post a (op.run m).2.heap

theorem run_recover (op : HeapM α) (handler : Error → HeapM α) (m : Machine) :
    (recover op handler).run m =
      match op.run m with
      | (.ok a, m') => (.ok a, m')
      | (.error e, m') => (handler e).run m' := rfl

theorem Reads.keeps {op : HeapM α} (reads : Reads pre op post) : Keeps building S pre op post := by
  intro m sound start
  obtain ⟨glanced, ends⟩ := reads m none sound start
  exact ⟨glanced.toUpkeep.kept (glanced.sound none sound) glanced.confined, ends⟩

theorem Keeps.bind {op : HeapM α} {f : α → HeapM β} {last : β → Heap → Prop} (first : Keeps building S pre op post)
    (next : ∀ a, Keeps building S (post a) (f a) last) : Keeps building S pre (op >>= f) last := by
  intro m sound start
  obtain ⟨kept, middle⟩ := first m sound start
  rw [run_bind]
  rcases outcome : op.run m with ⟨_ | a, m'⟩
  · rw [outcome] at kept
    exact ⟨kept, fun _ same => by cases same⟩
  · rw [outcome] at kept middle
    obtain ⟨kept', ends⟩ := next a m' kept.sound (middle a rfl)
    exact ⟨kept.trans kept', ends⟩

theorem Keeps.mono {op : HeapM α} (keeps : Keeps building S pre op post) (before : ∀ h, pre' h → pre h)
    (after : ∀ a h, post a h → post' a h) : Keeps building S pre' op post' :=
  fun m sound start => (keeps m sound (before _ start)).imp_right fun ends a same => after a _ (ends a same)

theorem Keeps.widen {op : HeapM α} (keeps : Keeps building S pre op post) (wider : ∀ x, S x → T x) :
    Keeps building T pre op post :=
  fun m sound start => (keeps m sound start).imp_left fun kept => kept.widen wider

/-- What follows from keeping stays true. -/
theorem Keeps.framed {op : HeapM α} {frame : Heap → Prop} (keeps : Keeps building S pre op post)
    (stable : ∀ h g, Kept building S h g → frame h → frame g) :
    Keeps building S (fun h => pre h ∧ frame h) op fun a h => post a h ∧ frame h := by
  intro m sound start
  obtain ⟨kept, ends⟩ := keeps m sound start.1
  exact ⟨kept, fun a same => ⟨ends a same, stable _ _ kept start.2⟩⟩

theorem keeps_pure (a : α) (holds : ∀ h, pre h → post a h) : Keeps building S pre (pure a) post :=
  (reads_pure a holds).keeps

theorem keeps_throw (e : Error) : Keeps building S pre (throw e : HeapM α) post :=
  (reads_throw e).keeps

theorem keeps_inspect {f : Heap → Except Error α} (holds : ∀ h a, pre h → f h = .ok a → post a h) :
    Keeps building S pre (inspect f) post :=
  (reads_inspect holds).keeps

/-- Protecting an object adds it to the roots. -/
theorem keeps_protect (x : Handle) {done : Unit → Heap → Prop} (element : ∀ h, pre h → h.Element x)
    (holds : ∀ h, pre h → done () { h with roots := h.roots.protect x }) : Keeps true S pre (protect x) done := by
  intro m sound start
  rw [protect, run_modifyRoots]
  refine ⟨⟨sound.rerooted fun y member => ?_, rfl, ⟨[x], rfl, by simp⟩, confined_rerooted _ _⟩, fun _ _ => holds _ start⟩
  have cases : y ∈ m.heap.roots.toList ∨ y = x := by
    simpa [RootSet.toList, RootSet.protect, or_assoc] using member
  rcases cases with root | rfl
  · exact sound.roots y (List.mem_append_left _ (List.mem_append_left _ root))
  · exact element _ start

/-- A construction as a whole keeps the roots. -/
theorem Keeps.guarded {body : HeapM α} (keeps : Keeps true S pre body post)
    (enter : ∀ h, pre' h → pre { h with roots := h.roots.enter })
    (leave : ∀ a h roots, post a h → post' a { h with roots := roots }) : Keeps building S pre' (guarded body) post' := by
  intro m sound start
  have entered : (m.mapRoots RootSet.enter).heap.Sound none := sound.rerooted fun x member =>
    sound.roots x (List.mem_append_left _ (List.mem_append_left _ member))
  obtain ⟨kept, ends⟩ := keeps (m.mapRoots RootSet.enter) entered (enter _ start)
  rw [run_guarded]
  exact ⟨kept.left, fun a same => leave a _ _ (ends a same)⟩

end HeapM

end ChunkHeap

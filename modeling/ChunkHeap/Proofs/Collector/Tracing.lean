import ChunkHeap.Proofs.Arena

/-!
# Marking shades exactly what is reachable

`Arena.Reaches` is reachability along the edges of live objects, said without
the collector. The state of marking is described against the arena it started
from: `Tracing.Sound` says that the arena differs in its marks only, that the
marks are the shaded objects, and that those are live, reached and listed once.

Scanning keeps `Sound` and makes one more shaded object black: what it leads to
is shaded (`Scanned`). As the shaded objects are distinct slots, there are at
most as many as the arena has slots, and a scan for each of them leaves no
object gray. So the shaded objects end up closed under edges, which together
with soundness makes them the live objects within reach (`Heap.traced_spec`).
-/

namespace ChunkHeap
set_option autoImplicit false

/-- The object with its mark set to `m`. -/
def Object.withMark (o : Object) (m : Bool) : Object :=
  { o with header := { o.header with marked := m } }

@[simp] theorem Object.withMark_payload (o : Object) (m : Bool) : (o.withMark m).payload = o.payload := rfl

@[simp] theorem Object.withMark_marked (o : Object) (m : Bool) : (o.withMark m).header.marked = m := rfl

@[simp] theorem Object.withMark_withMark (o : Object) (m n : Bool) : (o.withMark m).withMark n = o.withMark n := rfl

/-- What `starts` lead to along the edges of live objects. The last handle of a
path may name a free slot. -/
inductive Arena.Reaches (a : Arena) (starts : List Handle) : Handle → Prop where
  | start {x : Handle} : x ∈ starts → a.Reaches starts x
  | edge {x y : Handle} {o : Object} : a.Reaches starts x → a.get? x = some o → y ∈ o.payload.children →
      a.Reaches starts y

namespace Tracing

/-- Marking of the arena `a` from `starts` has come to `t` by shading live and
reachable objects, each once, and has done nothing else. -/
structure Sound (a : Arena) (starts : List Handle) (t : Tracing) : Prop where
  arena : t.arena = a.adjust fun x o => o.withMark (decide (x ∈ t.shaded))
  nodup : t.shaded.toList.Nodup
  live : ∀ x ∈ t.shaded, ∃ o, a.get? x = some o
  reached : ∀ x ∈ t.shaded, a.Reaches starts x

/-- What the first `i` shaded objects lead to is shaded, as far as it is live. -/
def Scanned (a : Arena) (i : Nat) (t : Tracing) : Prop :=
  ∀ j x o y, j < i → t.shaded[j]? = some x → a.get? x = some o → y ∈ o.payload.children →
    (∃ p, a.get? y = some p) → y ∈ t.shaded

variable {a : Arena} {starts : List Handle} {t : Tracing}

theorem Sound.init (a : Arena) (starts : List Handle) : Sound a starts { arena := a.clearMarks } where
  arena := by
    rw [Arena.clearMarks_eq_adjust]
    simp [Object.withMark]
  nodup := by simp
  live := by simp
  reached := by simp

theorem Sound.get? (sound : Sound a starts t) (x : Handle) :
    t.arena.get? x = (a.get? x).map fun o => o.withMark (decide (x ∈ t.shaded)) := by
  rw [sound.arena, Arena.get?_adjust]

/-- The edges a scan follows are those of the arena at the start. -/
theorem Sound.edges (sound : Sound a starts t) (x : Handle) :
    t.edges x = ((a.get? x).map fun o => o.payload.children).getD [] := by
  unfold Tracing.edges
  rw [sound.get?]
  cases a.get? x <;> rfl

theorem Sound.size_le (sound : Sound a starts t) : t.shaded.size ≤ a.slots.size := by
  have count := Arena.length_le_size sound.nodup fun x member => sound.live x (by simpa using member)
  rwa [Array.length_toList] at count

/-! ### Shading -/

/-- Shading a live object for the first time records it and sets its mark. -/
theorem Sound.shade_fresh (sound : Sound a starts t) {x : Handle} {o : Object} (reached : a.Reaches starts x)
    (found : a.get? x = some o) (fresh : x ∉ t.shaded) :
    Sound a starts { t with arena := t.arena.mark x, shaded := t.shaded.push x } where
  arena := by
    simp only [Arena.mark, Arena.update_eq_adjust]
    rw [sound.arena, Arena.adjust_adjust]
    congr
    funext y p
    by_cases same : x = y
    · simp [same, Object.withMark]
    · have different : ¬ y = x := fun e => same e.symm
      simp [same, different]
  nodup := by
    rw [Array.toList_push]
    exact List.nodup_append.2 ⟨sound.nodup, by simp, by
      intro y shaded z single same
      simp only [List.mem_singleton] at single
      exact fresh (by rw [← single, ← same]; simpa using shaded)⟩
  live := by
    intro y member
    rcases Array.mem_push.1 member with shaded | rfl
    · exact sound.live y shaded
    · exact ⟨o, found⟩
  reached := by
    intro y member
    rcases Array.mem_push.1 member with shaded | rfl
    · exact sound.reached y shaded
    · exact reached

/-- What one call of `shade` can do: nothing of note, or a first shading. -/
theorem Sound.shade (sound : Sound a starts t) {x : Handle} (reached : a.Reaches starts x) :
    Sound a starts (t.shade x) ∧ t.shaded.toList <+: (t.shade x).shaded.toList ∧
      ((∃ o, a.get? x = some o) → x ∈ (t.shade x).shaded) := by
  unfold Tracing.shade
  rw [sound.get?]
  cases found : a.get? x with
  | none => exact ⟨⟨sound.arena, sound.nodup, sound.live, sound.reached⟩, List.prefix_rfl, by simp⟩
  | some o =>
    by_cases shaded : x ∈ t.shaded
    · simp only [Option.map_some, shaded, decide_true, Object.withMark_marked, if_true]
      exact ⟨sound, List.prefix_rfl, fun _ => trivial⟩
    · simp only [Option.map_some, shaded, decide_false, Object.withMark_marked, Bool.false_eq_true, if_false]
      refine ⟨sound.shade_fresh reached found shaded, ?_, fun _ => by simp⟩
      rw [Array.toList_push]
      exact List.prefix_append _ _

theorem mem_of_longer {s t : Tracing} (longer : s.shaded.toList <+: t.shaded.toList) {x : Handle}
    (member : x ∈ s.shaded) : x ∈ t.shaded := by
  have listed := longer.subset (by simpa using member)
  simpa using listed

/-- Shading a list of reachable handles shades every live one among them. -/
theorem Sound.shadeAll (sound : Sound a starts t) {xs : List Handle} (reached : ∀ x ∈ xs, a.Reaches starts x) :
    Sound a starts (t.shadeAll xs) ∧ t.shaded.toList <+: (t.shadeAll xs).shaded.toList ∧
      ∀ x ∈ xs, (∃ o, a.get? x = some o) → x ∈ (t.shadeAll xs).shaded := by
  induction xs generalizing t with
  | nil => exact ⟨sound, List.prefix_rfl, by simp⟩
  | cons x rest ih =>
    obtain ⟨first, longer, here⟩ := sound.shade (reached x List.mem_cons_self)
    obtain ⟨last, longest, later⟩ := ih first fun y member => reached y (List.mem_cons_of_mem x member)
    refine ⟨last, longer.trans longest, ?_⟩
    intro y member live
    rcases List.mem_cons.1 member with rfl | member
    · exact mem_of_longer longest (here live)
    · exact later y member live

/-! ### Scanning -/

theorem getElem?_of_longer {s t : Tracing} (longer : s.shaded.toList <+: t.shaded.toList) {i : Nat}
    (bound : i < s.shaded.size) : t.shaded[i]? = s.shaded[i]? := by
  obtain ⟨rest, split⟩ := longer
  rw [← Array.getElem?_toList, ← Array.getElem?_toList, ← split,
    List.getElem?_append_left (by simpa using bound)]

/-- Scanning the object at position `i` blackens it and leaves the black ones black. -/
theorem Scanned.step (sound : Sound a starts t) {i : Nat} {x : Handle} (scanned : Scanned a i t)
    (here : t.shaded[i]? = some x) :
    Sound a starts (t.shadeAll (t.edges x)) ∧ t.shaded.toList <+: (t.shadeAll (t.edges x)).shaded.toList ∧
      Scanned a (i + 1) (t.shadeAll (t.edges x)) := by
  have bound : i < t.shaded.size := (Array.getElem?_eq_some_iff.1 here).1
  have shaded : x ∈ t.shaded := Array.mem_of_getElem? here
  obtain ⟨o, found⟩ := sound.live x shaded
  have edges : t.edges x = o.payload.children := by rw [sound.edges, found]; rfl
  obtain ⟨next, longer, covered⟩ := sound.shadeAll (by
    intro y member
    exact .edge (sound.reached x shaded) found (edges ▸ member))
  refine ⟨next, longer, ?_⟩
  intro j y p z before listed live child target
  rw [getElem?_of_longer longer (by omega)] at listed
  by_cases last : j = i
  · obtain rfl : x = y := Option.some.inj (here.symm.trans (last ▸ listed))
    obtain rfl : o = p := Option.some.inj (found.symm.trans live)
    exact covered z (edges ▸ child) target
  · exact mem_of_longer longer (scanned j y p z (by omega) listed live child target)

/-- With a scan for every object that can be shaded, marking ends with every
shaded object black, and further scans would change nothing. The induction is
on the scans left; `bound` is what they are measured against. -/
theorem scan_complete {fuel i limit : Nat} (bound : ∀ s, Sound a starts s → s.shaded.size ≤ limit)
    (enough : limit ≤ i + fuel) (sound : Sound a starts t) (scanned : Scanned a i t) :
    Sound a starts (scan fuel i t) ∧ t.shaded.toList <+: (scan fuel i t).shaded.toList ∧
      Scanned a (scan fuel i t).shaded.size (scan fuel i t) ∧
      ∀ extra, scan (fuel + extra) i t = scan fuel i t := by
  induction fuel generalizing i t with
  | zero =>
    have all : t.shaded.size ≤ i := by
      have := bound t sound
      omega
    refine ⟨sound, List.prefix_rfl, ?_, ?_⟩
    · intro j x o y before
      exact scanned j x o y (Nat.lt_of_lt_of_le before all)
    · intro extra
      cases extra with
      | zero => rfl
      | succ extra =>
        have past : t.shaded[i]? = none := Array.getElem?_eq_none all
        rw [show 0 + (extra + 1) = extra + 1 by omega]
        simp only [scan, past]
  | succ fuel ih =>
    cases here : t.shaded[i]? with
    | none =>
      have all : t.shaded.size ≤ i := Array.getElem?_eq_none_iff.1 here
      have stop : ∀ n, scan (n + 1) i t = t := fun n => by simp only [scan, here]
      rw [stop]
      refine ⟨sound, List.prefix_rfl, ?_, ?_⟩
      · intro j x o y before
        exact scanned j x o y (Nat.lt_of_lt_of_le before all)
      · intro extra
        rw [show fuel + 1 + extra = (fuel + extra) + 1 by omega, stop]
    | some x =>
      have go : ∀ n, scan (n + 1) i t = scan n (i + 1) (t.shadeAll (t.edges x)) := fun n => by simp only [scan, here]
      -- one more object is black, and `bound` limits how many there can be
      obtain ⟨next, longer, black⟩ := Scanned.step sound scanned here
      obtain ⟨last, longest, closed, settled⟩ := ih (i := i + 1) (by omega) next black
      rw [go]
      refine ⟨last, longer.trans longest, closed, ?_⟩
      intro extra
      rw [show fuel + 1 + extra = (fuel + extra) + 1 by omega, go, settled]

/-- A closed set of shaded objects that holds the live starting points holds
everything live that they lead to. -/
theorem mem_of_reaches (scanned : Scanned a t.shaded.size t)
    (roots : ∀ x ∈ starts, (∃ o, a.get? x = some o) → x ∈ t.shaded) {x : Handle} (reached : a.Reaches starts x)
    (live : ∃ o, a.get? x = some o) : x ∈ t.shaded := by
  induction reached with
  | start member => exact roots _ member live
  | edge _ found child ih =>
    have shaded := ih ⟨_, found⟩
    obtain ⟨j, before, listed⟩ := Array.mem_iff_getElem.1 shaded
    exact scanned j _ _ _ before (by rw [Array.getElem?_eq_getElem before, listed]) found child live

end Tracing

end ChunkHeap

import ChunkHeap.Container.Dict
import ChunkHeap.Container.List
import ChunkHeap.Proofs.Containers.Effects

/-!
# Keys given by their text

A table can be searched for a string object, or for a text without making an object
of it. Both scans go through the keys from the first one on; only the test of a key
differs. The tests agree on a string object with that text (`Heap.sameAs_text`):
a string is never compared element by element, so no key is too deeply nested for
it, and a key that is gone is the same error to both. A scan moves cursors but leaves
strings alone (`SegList.find?_get`), so the tests go on agreeing. Nothing is asked of
the table: its lengths and chains may be inconsistent.
-/

namespace ChunkHeap
set_option autoImplicit false

open HeapM

/-- Comparing with a string object is asking for its text. -/
theorem Heap.sameAs_text {h : Heap} {key : Handle} {text : String} (found : h.find? key = some (.str text)) (x : Handle) :
    h.sameAs key x = h.strEquals x text := by
  by_cases one : x = key
  · rw [one, sameAs, compare, compareWithin_self, strEquals, payload_ok found]
    simp [Except.map, bind, Except.bind]
  · rw [sameAs, compare, compareWithin_node, compareWithin.compareNode, if_neg one, strEquals, payload_ok found]
    cases h.payload x with
    | error e => rfl
    | ok p =>
      cases p with
      | str s => simp [Except.map, bind, Except.bind, pure, Except.pure]
      | _ => rfl

namespace SegList

variable {m : Machine} {x : Handle} {p : Payload}

/-- Once the position is located, only reading is left. -/
theorem get_moves (list : Handle) (i : Nat) (m : Machine) : ((get list i).run m).2 = ((locate list i).run m).2 := by
  rw [get, run_bind]
  rcases (locate list i).run m with ⟨e | ⟨seg, offset⟩, m'⟩
  · rfl
  · cases read : m'.heap.segmentRecord seg with
    | error e => exact congrArg Prod.snd (run_bind_error (by rw [run_inspect, read]))
    | ok r =>
      refine (congrArg Prod.snd (run_bind_ok (run_inspect_ok read))).trans ?_
      cases r.items[offset]? <;> rfl

/-- An access by position, whatever it finds, leaves anything but a segmented list as it is. -/
theorem find?_get (list : Handle) (i : Nat) (found : m.heap.find? x = some p) (other : p.tag ≠ .seglist) :
    ((get list i).run m).2.heap.find? x = some p := by
  rw [get_moves]
  rcases locate_moves list i m with same | ⟨r, cursor, there, moved⟩
  · rw [same, found]
  · have apart : x ≠ list := by
      rintro rfl
      rw [found] at there
      cases there
      exact other rfl
    rw [moved, Machine.put_heap, Heap.find?_setPayload_other apart, found]

end SegList

namespace DictObject

variable {m : Machine} {keys dict key x : Handle} {p : Payload} {text : String}
  {test test' : Heap → Handle → Except Error Bool}

/-- Scans by tests that agree as long as some object is what it is. -/
theorem run_findFrom_congr (agree : ∀ h y, h.find? x = some p → test h y = test' h y) (other : p.tag ≠ .seglist)
    (found : m.heap.find? x = some p) (count i : Nat) :
    (findFrom keys test count i).run m = (findFrom keys test' count i).run m := by
  induction count generalizing m i with
  | zero => rfl
  | succ count ih =>
    -- the access may move a cursor, but the tests still agree on the heap it leaves
    have kept := SegList.find?_get keys i found other
    rw [findFrom, findFrom, run_bind, run_bind]
    rcases ran : (SegList.get keys i).run m with ⟨e | key, m'⟩
    · rfl
    · rw [ran] at kept
      simp only [run_bind, run_inspect, agree _ _ kept]
      cases test' m'.heap key with
      | error e => rfl
      | ok passed =>
        cases passed with
        | true => rfl
        | false => exact ih kept (i + 1)

/-- **A lookup by text and a lookup by a string object with that text** are the same:
the value, its absence or the error, and the machine left behind. -/
theorem lookupText_eq_lookup (live : m.heap.payload key = .ok (.str text)) :
    (lookupText dict text).run m = (lookup dict key).run m := by
  have found := Heap.payload_eq_ok_iff.1 live
  have scans : ∀ r, (findText r text).run m = (findKey r key).run m := fun r =>
    run_findFrom_congr (fun h y string => (Heap.sameAs_text string y).symm) (by simp [Payload.tag]) found r.length 0
  rw [lookupText, lookup, run_bind, run_bind, run_inspect]
  cases m.heap.dictRecord dict with
  | error e => rfl
  | ok r => simp only [run_bind, scans]

/-- A table with a list in itself and the string "name" for keys, one that counts an
entry more, and one with a key that is gone. -/
def mix : HeapM Unit := do
  let d ← new
  let l ← ListObject.new
  ListObject.append l l
  set d l l
  let name ← StrObject.new "name"
  set d name d
  let r ← inspect fun h => h.dictRecord d
  let _ ← allocate (.dict { r with length := r.length + 1 })
  let d' ← new
  let lost ← StrObject.new "lost"
  set d' lost l
  let _ ← StrObject.new "name"
  let _ ← StrObject.new "none such"
  freeChunk lost

abbrev mixed : Machine :=
  (mix.run (Machine.create {}).2).2

/-- A value behind a key that is nested without end, no value, too few keys, and a key that is gone. -/
theorem lookupText_eq_lookup_mixed :
    mixed.heap.payload ⟨20⟩ = .ok (.str "name") ∧ mixed.heap.payload ⟨21⟩ = .ok (.str "none such") ∧
      ((lookup ⟨6⟩ ⟨20⟩).run mixed).1 = .ok (some ⟨6⟩) ∧ ((lookup ⟨6⟩ ⟨21⟩).run mixed).1 = .ok none ∧
      ((lookup ⟨13⟩ ⟨21⟩).run mixed).1 = .error .segListRange ∧ ((lookup ⟨16⟩ ⟨20⟩).run mixed).1 = .error .dangling := by
  have name : mixed.heap.payload ⟨20⟩ = .ok (.str "name") := by decide +kernel
  have absent : mixed.heap.payload ⟨21⟩ = .ok (.str "none such") := by decide +kernel
  refine ⟨name, absent, ?_, ?_, ?_, ?_⟩
  · rw [← lookupText_eq_lookup name]
    decide +kernel
  · rw [← lookupText_eq_lookup absent]
    decide +kernel
  · rw [← lookupText_eq_lookup absent]
    decide +kernel
  · rw [← lookupText_eq_lookup name]
    decide +kernel

end DictObject

end ChunkHeap

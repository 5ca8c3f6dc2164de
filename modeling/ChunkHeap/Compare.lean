import ChunkHeap.SegList.Basic

/-!
# Equality of objects

Integers are equal by value, strings by text, tuples and lists element by
element; any other object equals only itself. Containers are compared down to
`maxCompareDepth` levels, and a comparison that would go deeper is an error. That
also bounds the comparison of containers that contain themselves.
-/

namespace ChunkHeap
set_option autoImplicit false

/-- Outcome of a comparison. -/
inductive Comparison where
  | same
  | differ
deriving DecidableEq

namespace Comparison

/-- Same or different, from a Boolean. -/
def ofBool (b : Bool) : Comparison :=
  if b then same else differ

@[simp] theorem ofBool_eq_same_iff (b : Bool) : ofBool b = same ↔ b = true := by
  cases b <;> decide

end Comparison

/-- Levels of containers that are compared. -/
def maxCompareDepth : Nat := 16

/-- Compare two lists of equal length element by element, up to the first difference. -/
def elementwise (compare : Handle → Handle → Except Error Comparison) :
    List Handle → List Handle → Except Error Comparison
  | x :: xs, y :: ys => do
    match ← compare x y with
    | .same => elementwise compare xs ys
    | .differ => .ok .differ
  | _, _ => .ok .same

namespace Heap

/-- Compare two objects, going down at most `depth` levels of containers. -/
def compareWithin (h : Heap) : (depth : Nat) → Handle → Handle → Except Error Comparison
  | 0, a, b =>
    compareNode a b fun xs ys =>
      if xs.length = ys.length then .error .compareDepth else .ok .differ
  | depth + 1, a, b =>
    compareNode a b fun xs ys =>
      if xs.length = ys.length then elementwise (h.compareWithin depth) xs ys else .ok .differ
where
  /-- Compare two objects, with `sequences` for the elements of two containers. -/
  compareNode (a b : Handle) (sequences : List Handle → List Handle → Except Error Comparison) :
      Except Error Comparison := do
    if a = b then
      return .same
    else
      let p ← h.payload a
      let q ← h.payload b
      match p, q with
      | .none, .none => return .same
      | .int v, .int w => return .ofBool (v = w)
      | .str s, .str t => return .ofBool (s = t)
      | .tuple xs, .tuple ys => sequences xs ys
      | .list r, .list s =>
        if r.length = s.length then
          let xs ← h.segListItems r.storage
          let ys ← h.segListItems s.storage
          sequences xs ys
        else
          return .differ
      | _, _ => return .differ

/-- Compare two objects. -/
def compare (h : Heap) (a b : Handle) : Except Error Comparison :=
  h.compareWithin maxCompareDepth a b

/-- The elements of a list or a tuple, in order. -/
def sequenceItems (h : Heap) (x : Handle) : Except Error (List Handle) := do
  match ← h.payload x with
  | .tuple items => .ok items
  | .list r => h.segListItems r.storage
  | p => .error (.notSequence p.tag)

end Heap

end ChunkHeap

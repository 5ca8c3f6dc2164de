import ChunkHeap.Device.Sink
import ChunkHeap.SegList.Basic

/-!
# Printing

Objects are written straight to a byte sink. Strings are quoted inside
containers and bare at the top. Containers nested more than `maxPrintDepth`
levels deep are written as `...`, which also bounds the text of a container that
contains itself.
-/

namespace ChunkHeap
set_option autoImplicit false

/-- Levels of containers that are written out. -/
def maxPrintDepth : Nat := 16

namespace Printing

variable {σ : Type}

/-- Write elements with a comma between two. -/
def commaSeparated (sink : ByteSink σ) (element : Handle → SinkM σ Unit) : List Handle → SinkM σ Unit
  | [] => pure ()
  | [x] => element x
  | x :: y :: rest => do
    element x
    sink.write ", "
    commaSeparated sink element (y :: rest)

/-- Elements that are written alike make lists that are written alike. -/
theorem commaSeparated_congr (sink : ByteSink σ) {element element' : Handle → SinkM σ Unit} {xs ys : List Handle}
    (same : xs.map element = ys.map element') : commaSeparated sink element xs = commaSeparated sink element' ys := by
  induction xs generalizing ys with
  | nil =>
    obtain rfl : ys = [] := List.map_eq_nil_iff.1 same.symm
    rfl
  | cons x rest ih =>
    obtain ⟨y, rest', rfl, head, tail⟩ := List.map_eq_cons_iff.1 same.symm
    have later := ih tail.symm
    cases rest with
    | nil =>
      obtain rfl : rest' = [] := List.map_eq_nil_iff.1 tail
      exact head.symm
    | cons =>
      obtain ⟨z, rest'', rfl, -⟩ := List.map_eq_cons_iff.1 tail
      simp only [commaSeparated, head, later]

/-- Write entries, key and value, with a comma between two. -/
def entries (sink : ByteSink σ) (element : Handle → SinkM σ Unit) : List (Handle × Handle) → SinkM σ Unit
  | [] => pure ()
  | [(k, v)] => entry k v
  | (k, v) :: next :: rest => do
    entry k v
    sink.write ", "
    entries sink element (next :: rest)
where
  /-- Write one entry. -/
  entry (k v : Handle) : SinkM σ Unit := do
    element k
    sink.write ": "
    element v

/-- Write a slice bound, nothing for an absent one. -/
def bound (element : Handle → SinkM σ Unit) : Option Handle → SinkM σ Unit
  | some x => element x
  | none => pure ()

/-- Write an object by what it holds, with `element` for the objects inside it. -/
def node (h : Heap) (sink : ByteSink σ) (nested : Bool) (element : Handle → SinkM σ Unit) :
    Payload → SinkM σ Unit
  | .none => sink.write "None"
  | .int v => sink.write v.toInt.repr
  | .str s =>
    if nested then do
      sink.write "'"
      sink.write s
      sink.write "'"
    else
      sink.write s
  | .tuple items => do
    sink.write "("
    commaSeparated sink element items
    sink.write (if items.length = 1 then ",)" else ")")
  | .list r => do
    let items ← SinkM.ofExcept (h.segListItems r.storage)
    sink.write "["
    commaSeparated sink element items
    sink.write "]"
  | .dict r => do
    let keys ← SinkM.ofExcept (h.segListItems r.keys)
    let vals ← SinkM.ofExcept (h.segListItems r.vals)
    sink.write "\x7b"
    entries sink element (keys.zip vals)
    sink.write "\x7d"
  | .slice r => do
    sink.write "["
    bound element r.start
    sink.write ":"
    bound element r.stop
    sink.write ":"
    bound element r.step
    sink.write "]"
  | .function r => do
    sink.write "<function "
    let name ← SinkM.ofExcept (h.strText r.name)
    sink.write name
    sink.write ">"
  | .cls r => do
    sink.write "<class "
    let name ← SinkM.ofExcept (h.strText r.name)
    sink.write name
    sink.write ">"
  | .inst r => do
    sink.write "<"
    let name ← SinkM.ofExcept (h.strText r.name)
    sink.write name
    sink.write " instance>"
  | .method _ => sink.write "<bound method>"
  | .seglist r => sink.write ("<seglist of " ++ r.length.repr ++ ">")
  | .segment _ => sink.write "<segment>"

/-- Write an object and what it contains, `levels` levels of objects in all. -/
def value (h : Heap) (sink : ByteSink σ) : (levels : Nat) → (nested : Bool) → Handle → SinkM σ Unit
  | 0, _, _ => sink.write "..."
  | levels + 1, nested, x => do
    let p ← SinkM.ofExcept (h.payload x)
    node h sink nested (value h sink levels true) p

theorem value_succ {h : Heap} {x : Handle} {p : Payload} (held : h.payload x = .ok p) (sink : ByteSink σ)
    (levels : Nat) (nested : Bool) :
    value h sink (levels + 1) nested x = node h sink nested (value h sink levels true) p := by
  rw [value, held, SinkM.ofExcept_bind]

end Printing

namespace Heap

variable {σ : Type}

/-- Write an object to a sink. -/
def print (h : Heap) (sink : ByteSink σ) (x : Handle) : SinkM σ Unit :=
  Printing.value h sink (maxPrintDepth + 1) false x

/-- Write an object that has to have a certain tag. -/
def printTagged (h : Heap) (tag : Tag) (sink : ByteSink σ) (x : Handle) : SinkM σ Unit := do
  SinkM.ofExcept (h.expectTag x tag)
  h.print sink x

/-- The text of an object. -/
def render (h : Heap) (x : Handle) : Except Error String :=
  match (h.print .buffer x).run #[] with
  | (.ok (), bytes) => .ok ((String.fromUTF8? ⟨bytes⟩).getD "")
  | (.error e, _) => .error e

end Heap

end ChunkHeap

/-!
# TOML tables

A document is a table of keyed values. Tables come about in several ways, and
how one came about decides what may still be added to it (`Origin`):

* a header `[a.b]` opens `a.b` and implies `a`, which a later header may open;
* a dotted key `a.b = 1` makes `a`, and more dotted keys may add to it;
* an inline table is closed.

`Table.assign?`, `Table.openTable?` and `Table.openRow?` add to a table and are
undefined where that would redefine something.
-/

namespace ChunkHeap.Toml
set_option autoImplicit false

/-- How a table came about. -/
inductive Origin where
  /-- Opened by a header. -/
  | header
  /-- On the way to a table that a header opened. -/
  | implied
  /-- On the way to a dotted key. -/
  | dotted
  /-- Written as a value. -/
  | inlined
deriving DecidableEq

/-- A value of a document. -/
inductive Value where
  | string (text : String)
  | integer (n : Int)
  /-- A floating-point number, as written. -/
  | float (written : String)
  | boolean (b : Bool)
  /-- A date, a time or both, as written. -/
  | moment (written : String)
  | array (items : List Value)
  | table (origin : Origin) (entries : List (String × Value))
  /-- Tables that headers in double brackets opened, in order. -/
  | rows (tables : List (List (String × Value)))

/-- Keys with their values, in the order in which they came about. -/
abbrev Table : Type :=
  List (String × Value)

namespace Table

/-- The value under a key. -/
def get? (t : Table) (key : String) : Option Value :=
  t.lookup key

/-- Put a value under a key, in place of the one that is there. -/
def put (t : Table) (key : String) (v : Value) : Table :=
  if (t.get? key).isSome then
    t.map fun (k, w) => if k = key then (k, v) else (k, w)
  else
    t ++ [(key, v)]

/-- Change the last of several tables. -/
def changeLast? (change : Table → Option Table) : List Table → Option (List Table)
  | [] => none
  | [t] => (change t).map fun u => [u]
  | t :: u :: rest => (changeLast? change (u :: rest)).map (t :: ·)

/-- Store a value under a dotted key. A key without dots belongs to the table at
hand; the table a dotted key ends in has to be one that dotted keys made. -/
def assign? (t : Table) (here : Bool) : (path : List String) → Value → Option Table
  | [], _ => none
  | [key], v => if here && (t.get? key).isNone then some (t.put key v) else none
  | key :: next :: rest, v =>
    match t.get? key with
    | none => do
      let sub ← assign? [] true (next :: rest) v
      return t.put key (.table .dotted sub)
    | some (.table .dotted sub) => do
      let sub ← assign? sub true (next :: rest) v
      return t.put key (.table .dotted sub)
    | some (.table .implied sub) => do
      let sub ← assign? sub false (next :: rest) v
      return t.put key (.table .implied sub)
    | some (.rows tables) => do
      let tables ← changeLast? (fun sub => assign? sub false (next :: rest) v) tables
      return t.put key (.rows tables)
    | some _ => none

/-- Go down a path, implying tables that are not there, and change the table at its end. -/
def changeAt? (change : Table → Option Table) : (path : List String) → Table → Option Table
  | [], t => change t
  | key :: rest, t =>
    match t.get? key with
    | none => do
      let sub ← changeAt? change rest []
      return t.put key (.table .implied sub)
    | some (.table .inlined _) => none
    | some (.table origin sub) => do
      let sub ← changeAt? change rest sub
      return t.put key (.table origin sub)
    | some (.rows tables) => do
      let tables ← changeLast? (changeAt? change rest) tables
      return t.put key (.rows tables)
    | some _ => none

/-- Open the table that a header names. A table is opened once. -/
def openTable? (path : List String) (t : Table) : Option Table := do
  let key ← path.getLast?
  let change (parent : Table) : Option Table :=
    match parent.get? key with
    | none => some (parent.put key (.table .header []))
    | some (.table .implied sub) => some (parent.put key (.table .header sub))
    | some _ => none
  changeAt? change path.dropLast t

/-- Open one more table of those that a header in double brackets names. -/
def openRow? (path : List String) (t : Table) : Option Table := do
  let key ← path.getLast?
  let change (parent : Table) : Option Table :=
    match parent.get? key with
    | none => some (parent.put key (.rows [[]]))
    | some (.rows tables) => some (parent.put key (.rows (tables ++ [[]])))
    | some _ => none
  changeAt? change path.dropLast t

/-- A table from its keys and values, in order. -/
def ofPairs? (pairs : List (List String × Value)) : Option Table :=
  pairs.foldlM (fun t (path, v) => assign? t true path v) []

end Table

/-- A line of a document that says something. -/
inductive Line where
  | header (path : List String)
  | rowHeader (path : List String)
  | pair (path : List String) (value : Value)

/-- A document under construction: its table so far and the table at hand. -/
structure Draft where
  root : Table := []
  current : List String := []

namespace Draft

/-- Add one line. -/
def add? (d : Draft) : Line → Option Draft
  | .header path => do
    let root ← d.root.openTable? path
    return { root, current := path }
  | .rowHeader path => do
    let root ← d.root.openRow? path
    return { root, current := path }
  | .pair path v => do
    let root ← Table.changeAt? (fun t => t.assign? true path v) d.current d.root
    return { d with root }

end Draft

/-- The table that the lines of a document describe. -/
def Table.ofLines? (lines : List Line) : Option Table :=
  (lines.foldlM Draft.add? {}).map Draft.root

end ChunkHeap.Toml

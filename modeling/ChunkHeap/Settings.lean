import ChunkHeap.HeapConfig
import ChunkHeap.Toml.Reader
import ChunkHeap.Toml.Writer

/-!
# Runtime settings

How large the heap is and what is logged where, as a TOML document with the
sections `heap` and `logging`. Reading ignores what it does not know and takes
defaults for what is missing; a value of the wrong type is an error. A section
is a table, or an array that gives its fields by position (`Section`).
-/

namespace ChunkHeap
set_option autoImplicit false

/-- What is logged, and where to. -/
structure LogSettings where
  level : String := "info"
  file : Option String := none
  json : Bool := false
  spans : Bool := false
deriving DecidableEq

/-- All settings of a runtime. -/
structure Settings where
  heap : HeapConfig := {}
  logging : LogSettings := {}
deriving DecidableEq

namespace Settings

open Toml

/-- An integer that is not negative. -/
def nat? : Value → Option Nat
  | .integer n => if 0 ≤ n then some n.toNat else none
  | _ => none

def bool? : Value → Option Bool
  | .boolean b => some b
  | _ => none

def text? : Value → Option String
  | .string s => some s
  | _ => none

/-- A group of fields. -/
inductive Section where
  /-- Fields under their names. -/
  | named (fields : Table)
  /-- Fields by position; those at the end may be missing. -/
  | listed (fields : List Value)

namespace Section

/-- A section without fields. -/
def empty : Section :=
  .named []

/-- A value as a section. A date or a time is one too, and has no fields. -/
def ofValue? : Value → Option Section
  | .table _ t => some (.named t)
  | .array items => some (.listed items)
  | .rows tables => some (.listed (tables.map (.table .header)))
  | .moment _ => some empty
  | _ => none

/-- The value of a field, if it is there. -/
def get? (s : Section) (position : Nat) (name : String) : Option Value :=
  match s with
  | named t => t.get? name
  | listed items => items[position]?

/-- The value of a field, or its default. A value of the wrong type is refused. -/
def fieldOr? {α : Type} (s : Section) (position : Nat) (name : String) (read : Value → Option α)
    (default : α) : Option α :=
  match s.get? position name with
  | none => some default
  | some v => read v

end Section

/-- The section `heap`. -/
def heapOfSection? (s : Section) : Option HeapConfig := do
  let base : HeapConfig := {}
  let arenaBytes ← s.fieldOr? 0 "arena_bytes" nat? base.arenaBytes
  let maxChunkBytes ← s.fieldOr? 1 "max_chunk_bytes" nat? base.maxChunkBytes
  let collectOnExhaustion ← s.fieldOr? 2 "collect_on_exhaustion" bool? base.collectOnExhaustion
  return { arenaBytes, maxChunkBytes, collectOnExhaustion }

/-- The section `logging`. -/
def loggingOfSection? (s : Section) : Option LogSettings := do
  let base : LogSettings := {}
  let level ← s.fieldOr? 0 "level" text? base.level
  let file ← s.fieldOr? 1 "file" (fun v => (text? v).map some) base.file
  let json ← s.fieldOr? 2 "json" bool? base.json
  let spans ← s.fieldOr? 3 "spans" bool? base.spans
  return { level, file, json, spans }

/-- Settings from a document's table. -/
def ofTable? (t : Table) : Option Settings := do
  let document := Section.named t
  let heap ← document.fieldOr? 0 "heap" Section.ofValue? .empty
  let logging ← document.fieldOr? 1 "logging" Section.ofValue? .empty
  return { heap := ← heapOfSection? heap, logging := ← loggingOfSection? logging }

/-- Read settings and check that a heap can be made from them. -/
def parse (text : String) : Except Error Settings :=
  match (Toml.read? text).bind ofTable? with
  | none => .error .configSyntax
  | some s => do
    s.heap.validate
    return s

/-- Read settings from the bytes of a file, if there is one. -/
def parseFile (content : Option (List UInt8)) : Except Error Settings :=
  match content.bind fun bytes => String.fromUTF8? ⟨bytes.toArray⟩ with
  | none => .error .configRead
  | some text => parse text

/-- A line of a table. -/
def line (key value : String) : String :=
  key ++ " = " ++ value ++ "\n"

/-- Settings as a document. -/
def render? (s : Settings) : Option String := do
  let arenaBytes ← writeNat? s.heap.arenaBytes
  let maxChunkBytes ← writeNat? s.heap.maxChunkBytes
  let file := match s.logging.file with
    | some file => line "file" (writeString file)
    | none => ""
  return "[heap]\n"
    ++ line "arena_bytes" arenaBytes
    ++ line "max_chunk_bytes" maxChunkBytes
    ++ line "collect_on_exhaustion" (writeBool s.heap.collectOnExhaustion)
    ++ "\n[logging]\n"
    ++ line "level" (writeString s.logging.level)
    ++ file
    ++ line "json" (writeBool s.logging.json)
    ++ line "spans" (writeBool s.logging.spans)

/-- Settings as a document; a number too large for one is an error. -/
def render (s : Settings) : Except Error String :=
  match s.render? with
  | some text => .ok text
  | none => .error .configWrite

end Settings

end ChunkHeap

import ChunkHeap.Log.Config

/-!
# Log filters

A filter is a list of directives. A directive is for the events of some targets,
possibly only for those with a certain field, and says down to which level they
pass. Of the directives for an event, the most specific one decides
(`Directive.outranks`); of two for the same events, the later one stays
(`Filter.add`). Directives about spans say nothing here, since no span is ever
opened.
-/

namespace ChunkHeap.Log
set_option autoImplicit false

/-- Which events pass. -/
structure Directive where
  /-- Targets start with this. -/
  target : String := ""
  /-- A field that the events have. -/
  field : Option String := none
  /-- For events within spans only. -/
  inSpan : Bool := false
  /-- The least grave level that passes; without one, no event does. -/
  level : Option Level := some .trace
deriving DecidableEq

namespace Directive

/-- The number that digits write, with or without a plus sign in front. -/
def number? (cs : List Char) : Option Nat :=
  let ds := match cs with
    | '+' :: ds => ds
    | ds => ds
  if ds ≠ [] && ds.all Char.isDigit then
    some (ds.foldl (fun n c => n * 10 + (c.toNat - '0'.toNat)) 0)
  else
    none

/-- A level by its name or its number, `off` and 0 for none at all. -/
def level? (text : List Char) : Option (Option Level) :=
  match number? text with
  | some 0 => some none
  | some 1 => some (some .error)
  | some 2 => some (some .warn)
  | some 3 => some (some .info)
  | some 4 => some (some .debug)
  | some 5 => some (some .trace)
  | some _ => none
  | none =>
    if (String.ofList text).toUpper = "OFF" then some none
    else (Level.ofName? (String.ofList text)).map some

/-- Blocks of characters beyond ASCII that are neither letters nor digits:
controls, punctuation, symbols, private use and pictographs. -/
def symbolBlocks : List (Nat × Nat) :=
  [(0x80, 0xA9), (0xAB, 0xB1), (0xB4, 0xB4), (0xB6, 0xB8), (0xBB, 0xBB), (0xBF, 0xBF),
    (0xD7, 0xD7), (0xF7, 0xF7), (0x2000, 0x206F), (0x20A0, 0x20FF), (0x2190, 0x245F),
    (0x2500, 0x2775), (0x2794, 0x2BFF), (0x2E00, 0x2FFF), (0x3000, 0x3004), (0x3008, 0x3020),
    (0xE000, 0xF8FF), (0xFE00, 0xFE6F), (0xFFF0, 0xFFFF), (0x1F000, 0x1FAFF), (0xE0000, 0x10FFFF)]

/-- What a directive may start with, a bracket apart. -/
def isInitial (c : Char) : Bool :=
  if c.toNat < 0x80 then c.isAlphanum || c = '-' || c = ':' || c = '_'
  else !symbolBlocks.any fun (low, high) => low ≤ c.toNat && c.toNat ≤ high

/-- The end of a directive: nothing, an equals sign, or one and a level. -/
def levelPart? (d : Directive) : List Char → Option Directive
  | [] => some d
  | ['='] => some d
  | '=' :: text => (level? text).map fun level => { d with level }
  | _ => none

/-- What stands behind an opening bracket: the name of a span, a field in braces,
or both. A field with a value is one of a span. -/
def spanPart? (target : String) (cs : List Char) : Option Directive :=
  let name := cs.takeWhile fun c => c ≠ ']' && c ≠ '\x7b'
  match cs.drop name.length with
  | ']' :: rest => levelPart? { target, inSpan := true } rest
  | '\x7b' :: rest =>
    let text := rest.takeWhile (· ≠ '\x7d')
    match rest.drop text.length with
    | '\x7d' :: ']' :: rest =>
      if text = [] then none
      else
        let field := String.ofList (text.takeWhile (· ≠ '='))
        levelPart? { target, field := some field, inSpan := name ≠ [] || text.contains '=' } rest
    | _ => none
  | _ => none

/-- A directive: a level for all targets, a target for all levels, or a target, a
span or both with a level behind an equals sign. -/
def parse? (text : String) : Option Directive :=
  match text.toList with
  | [] => none
  | '[' :: cs => spanPart? "" cs
  | c :: cs =>
    if isInitial c then
      let target := (c :: cs).takeWhile fun c => c ≠ '=' && c ≠ '['
      match (c :: cs).drop target.length with
      | [] =>
        match level? target with
        | some level => some { level }
        | none => some { target := text }
      | '[' :: rest => spanPart? (String.ofList target) rest
      | rest => levelPart? { target := String.ofList target } rest
    else
      none

/-- Whether a directive is for an event. Every event has a field for its message. -/
def appliesTo (d : Directive) (e : Event) : Bool :=
  d.target.toList.isPrefixOf e.target.toList &&
    match d.field with
    | some name => name = "message" || e.fields.any fun (field, _) => field = name
    | none => true

/-- Whether events of this level pass. -/
def passes (d : Directive) (l : Level) : Bool :=
  match d.level with
  | some limit => l.passes limit
  | none => false

/-- Of two directives for an event, the one with the longer target goes first, then
one with a field, then the one whose field is later in the alphabet. -/
def outranks (a b : Directive) : Bool :=
  if a.target.length = b.target.length then
    match a.field, b.field with
    | some x, some y => y < x
    | some _, none => true
    | none, _ => false
  else
    b.target.length < a.target.length

/-- The directive that goes first. -/
def foremost? (ds : List Directive) : Option Directive :=
  ds.foldl (fun best d =>
    match best with
    | some b => if d.outranks b then some d else some b
    | none => some d) none

end Directive

/-- Directives, at most one for the same events. -/
structure Filter where
  directives : List Directive := []
deriving DecidableEq

namespace Filter

/-- Add a directive, in place of one for the same events. -/
def add (f : Filter) (d : Directive) : Filter where
  directives :=
    f.directives.filter (fun e => e.target ≠ d.target || e.field ≠ d.field) ++ [d]

/-- The filter of directives. Without any, errors pass. -/
def ofDirectives (ds : List Directive) : Filter :=
  if ds = [] then { directives := [{ level := some .error }] }
  else (ds.filter fun d => !d.inSpan).foldl add {}

/-- Directives with commas between them. One that is not valid spoils them all. -/
def parse? (text : String) : Option Filter :=
  (((text.splitOn ",").filter (· ≠ "")).mapM Directive.parse?).map ofDirectives

/-- The filter of a configuration without directives: the runtime's own targets. -/
def ofLevel (level : Level) : Filter :=
  { directives := [{ target := "mite_core", level := some level }] }

/-- Whether an event passes: the foremost directive for it decides. -/
def admits (f : Filter) (e : Event) : Bool :=
  match Directive.foremost? (f.directives.filter (·.appliesTo e)) with
  | some d => d.passes e.level
  | none => false

end Filter

end ChunkHeap.Log

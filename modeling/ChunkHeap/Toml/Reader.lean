import ChunkHeap.Toml.Moment

/-!
# Reading TOML

Keys, values and lines. Values nest, and the readers of arrays and inline tables
take the reader of what is in them; one level fewer is left for it. A document is
its lines, in order.
-/

namespace ChunkHeap.Toml
set_option autoImplicit false

namespace Reader

/-! ### Keys -/

/-- A key without dots. -/
def simpleKey : Reader String
  | [] => none
  | c :: cs =>
    if c = quote || c = apostrophe then lineString (c :: cs)
    else if isBare c then
      some (String.ofList ((c :: cs).takeWhile isBare), (c :: cs).dropWhile isBare)
    else none

/-- The parts of a key with dots between them, and the blanks around them. -/
def keyParts : (fuel : Nat) → Reader (List String)
  | 0, _ => none
  | fuel + 1, cs => do
    let (part, rest) ← simpleKey (skipBlanks cs)
    match skipBlanks rest with
    | '.' :: rest => do
      let (parts, rest) ← keyParts fuel rest
      return (part :: parts, rest)
    | rest => return ([part], rest)

/-- Keys have fewer parts, and values fewer levels, than this. -/
def nestingLimit : Nat := 80

/-- A key with or without dots. -/
def key : Reader (List String) := fun cs => do
  let (path, rest) ← keyParts (cs.length + 1) cs
  if path.length < nestingLimit then return (path, rest) else none

/-! ### Values -/

/-- A value that holds no others. -/
def simpleValue : Reader Value
  | [] => none
  | c :: cs =>
    if c = quote || c = apostrophe then (string (c :: cs)).map fun (s, rest) => (.string s, rest)
    else if c = 't' then (literal ['r', 'u', 'e'] cs).map fun ((), rest) => (.boolean true, rest)
    else if c = 'f' then (literal ['a', 'l', 's', 'e'] cs).map fun ((), rest) => (.boolean false, rest)
    else moment (c :: cs) <|> numeral (c :: cs)

/-- The elements of an array up to its closing bracket; a last comma is allowed. -/
def arrayItems (item : Reader Value) : (fuel : Nat) → Reader (List Value)
  | 0, _ => none
  | fuel + 1, cs => do
    match ← skipSpace (cs.length + 1) cs with
    | ']' :: rest => return ([], rest)
    | rest => do
      let (v, rest) ← item rest
      match ← skipSpace (rest.length + 1) rest with
      | ',' :: rest => do
        let (vs, rest) ← arrayItems item fuel rest
        return (v :: vs, rest)
      | ']' :: rest => return ([v], rest)
      | _ => none

/-- The entries of an inline table up to its closing brace, at least one. -/
def inlinePairs (item : Reader Value) : (fuel : Nat) → Reader (List (List String × Value))
  | 0, _ => none
  | fuel + 1, cs => do
    let (path, rest) ← key cs
    let ((), rest) ← literal ['='] rest
    let (v, rest) ← item (skipBlanks rest)
    match skipBlanks rest with
    | ',' :: rest => do
      let (pairs, rest) ← inlinePairs item fuel rest
      return ((path, v) :: pairs, rest)
    | '\x7d' :: rest => return ([(path, v)], rest)
    | _ => none

/-- An inline table, after its opening brace. -/
def inlineTable (item : Reader Value) (cs : List Char) : Option (Value × List Char) :=
  match skipBlanks cs with
  | '\x7d' :: rest => some (.table .inlined [], rest)
  | rest => do
    let (pairs, rest) ← inlinePairs item (rest.length + 1) rest
    let t ← Table.ofPairs? pairs
    return (.table .inlined t, rest)

/-- A value with at most `depth` levels of arrays and inline tables. -/
def value : (depth : Nat) → Reader Value
  | 0 => simpleValue
  | depth + 1 => fun cs =>
    match cs with
    | '[' :: rest =>
      (arrayItems (value depth) (rest.length + 1) rest).map fun (items, rest) => (.array items, rest)
    | '\x7b' :: rest => inlineTable (value depth) rest
    | cs => simpleValue cs

/-! ### Lines -/

/-- A key, an equals sign and a value. -/
def pair : Reader Line := fun cs => do
  let (path, rest) ← key cs
  let ((), rest) ← literal ['='] rest
  let (v, rest) ← value (nestingLimit - 1) (skipBlanks rest)
  return (.pair path v, rest)

/-- A header in single or double brackets. -/
def header : Reader Line
  | '[' :: '[' :: cs => do
    let (path, rest) ← key cs
    let ((), rest) ← literal [']', ']'] rest
    return (.rowHeader path, rest)
  | '[' :: cs => do
    let (path, rest) ← key cs
    let ((), rest) ← literal [']'] rest
    return (.header path, rest)
  | _ => none

/-- The lines of a document; blank lines and comments say nothing. -/
def lines : (fuel : Nat) → List Char → Option (List Line)
  | 0, _ => none
  | fuel + 1, cs =>
    match skipBlanks cs with
    | [] => some []
    | c :: rest =>
      if c = '#' || c = '\n' || c = '\r' then do
        let rest ← restOfLine (c :: rest)
        lines fuel rest
      else do
        let (line, rest) ← (if c = '[' then header else pair) (c :: rest)
        let rest ← restOfLine rest
        let more ← lines fuel rest
        return line :: more

end Reader

/-- The text without a byte order mark at its front. -/
def skipByteOrderMark : List Char → List Char
  | c :: cs => if c.toNat = 0xFEFF then cs else c :: cs
  | [] => []

/-- Read a document. -/
def read? (text : String) : Option Table := do
  let cs := skipByteOrderMark text.toList
  let lines ← Reader.lines (cs.length + 1) cs
  Table.ofLines? lines

end ChunkHeap.Toml

/-!
# Blanks, line ends and strings of TOML

A reader takes a list of characters to a result and the characters it left. The
readers here are the small ones: blanks, comments, line ends, and strings in
their four forms. Every step of a loop takes at least one character, so the
number of characters bounds the loops; that is where their fuel comes from.
-/

namespace ChunkHeap.Toml
set_option autoImplicit false

/-- Takes a result off the front of a text. -/
abbrev Reader (α : Type) : Type :=
  List Char → Option (α × List Char)

namespace Reader

/-! ### Characters -/

/-- The double quote. -/
def quote : Char := Char.ofNat 0x22

/-- The single quote. -/
def apostrophe : Char := Char.ofNat 0x27

/-- The backslash. -/
def backslash : Char := Char.ofNat 0x5C

/-- Blanks within a line. -/
def isBlank (c : Char) : Bool :=
  c = ' ' || c = '\t'

/-- Characters of a comment or a string on one line: anything but control
characters other than the tab. -/
def isText (c : Char) : Bool :=
  c = '\t' || (0x20 ≤ c.toNat && c.toNat ≠ 0x7F)

/-- Characters of a key without quotes. -/
def isBare (c : Char) : Bool :=
  c.isAlphanum || c = '_' || c = '-'

/-- The value of a digit in any base up to sixteen. -/
def digitValue? (c : Char) : Option Nat :=
  if '0' ≤ c ∧ c ≤ '9' then some (c.toNat - '0'.toNat)
  else if 'a' ≤ c ∧ c ≤ 'f' then some (c.toNat - 'a'.toNat + 10)
  else if 'A' ≤ c ∧ c ≤ 'F' then some (c.toNat - 'A'.toNat + 10)
  else none

/-- Whether a character is a digit in this base. -/
def isDigitIn (base : Nat) (c : Char) : Bool :=
  match digitValue? c with
  | some d => d < base
  | none => false

/-- The number that digits write. -/
def number (base : Nat) (digits : List Char) : Nat :=
  digits.foldl (fun n c => n * base + (digitValue? c).getD 0) 0

/-- A given text. -/
def literal (expected : List Char) : Reader Unit := fun cs =>
  if expected.isPrefixOf cs then some ((), cs.drop expected.length) else none

/-- The text without the blanks at its front. -/
def skipBlanks (cs : List Char) : List Char :=
  cs.dropWhile isBlank

/-- The text without the comment at its front. -/
def skipComment : List Char → List Char
  | '#' :: cs => cs.dropWhile isText
  | cs => cs

/-- A line end, written with or without a carriage return. -/
def lineEnd : Reader Unit
  | '\n' :: cs => some ((), cs)
  | '\r' :: '\n' :: cs => some ((), cs)
  | _ => none

/-- What may follow the last thing on a line. -/
def restOfLine (cs : List Char) : Option (List Char) :=
  match skipComment (skipBlanks cs) with
  | [] => some []
  | cs => (lineEnd cs).map Prod.snd

/-- The text without blanks, comments and line ends at its front. -/
def skipSpace : (fuel : Nat) → List Char → Option (List Char)
  | 0, cs => some cs
  | fuel + 1, cs =>
    match skipBlanks cs with
    | '#' :: rest => do
      let ((), rest) ← lineEnd (skipComment ('#' :: rest))
      skipSpace fuel rest
    | rest =>
      match lineEnd rest with
      | some ((), rest) => skipSpace fuel rest
      | none => some rest

/-! ### Strings -/

/-- The character with a code point in hexadecimal. -/
def scalar? (digits : List Char) : Option Char :=
  if digits.all (isDigitIn 16) then
    let n := number 16 digits
    if n.isValidChar then some (Char.ofNat n) else none
  else
    none

/-- The character that stands behind a backslash. -/
def escaped : Reader Char
  | 'b' :: cs => some (Char.ofNat 0x08, cs)
  | 't' :: cs => some ('\t', cs)
  | 'n' :: cs => some ('\n', cs)
  | 'f' :: cs => some (Char.ofNat 0x0C, cs)
  | 'r' :: cs => some ('\r', cs)
  | 'u' :: cs => if 4 ≤ cs.length then (scalar? (cs.take 4)).map (·, cs.drop 4) else none
  | 'U' :: cs => if 8 ≤ cs.length then (scalar? (cs.take 8)).map (·, cs.drop 8) else none
  | c :: cs => if c = quote || c = backslash then some (c, cs) else none
  | [] => none

/-- Put a character in front of a text that was read. -/
def before (c : Char) (r : Option (List Char × List Char)) : Option (List Char × List Char) :=
  r.map fun (text, rest) => (c :: text, rest)

/-- A string on one line, after its opening quote. -/
def basicBody : (fuel : Nat) → Reader (List Char)
  | 0, _ => none
  | _ + 1, [] => none
  | fuel + 1, c :: cs =>
    if c = quote then some ([], cs)
    else if c = backslash then do
      let (e, rest) ← escaped cs
      before e (basicBody fuel rest)
    else if isText c then before c (basicBody fuel cs)
    else none

/-- A string without escapes on one line, after its opening quote. -/
def literalBody : Reader (List Char)
  | [] => none
  | c :: cs =>
    if c = apostrophe then some ([], cs)
    else if isText c then before c (literalBody cs)
    else none

/-- The quotes that close a string of several lines: three, or up to two more,
which then belong to the string. Gives those. -/
def closing? (q : Char) (cs : List Char) : Option (List Char × List Char) :=
  let run := (cs.takeWhile (· = q)).length
  if run < 3 then none
  else
    let more := min (run - 3) 2
    some (List.replicate more q, cs.drop (more + 3))

/-- The text without blanks and line ends at its front. -/
def skipLines : (fuel : Nat) → List Char → List Char
  | 0, cs => cs
  | fuel + 1, cs =>
    match lineEnd (skipBlanks cs) with
    | some ((), rest) => skipLines fuel rest
    | none => skipBlanks cs

/-- A backslash at the end of a line, with the blanks and line ends behind it. -/
def continuation? (cs : List Char) : Option (List Char) := do
  let ((), rest) ← lineEnd (skipBlanks cs)
  return skipLines (rest.length + 1) rest

/-- A string of several lines, after its opening quotes. -/
def multiBasicBody : (fuel : Nat) → Reader (List Char)
  | 0, _ => none
  | _ + 1, [] => none
  | fuel + 1, c :: cs =>
    if c = quote then
      match closing? quote (c :: cs) with
      | some result => some result
      | none => before c (multiBasicBody fuel cs)
    else if c = backslash then
      match continuation? cs with
      | some rest => multiBasicBody fuel rest
      | none => do
        let (e, rest) ← escaped cs
        before e (multiBasicBody fuel rest)
    else if isText c then before c (multiBasicBody fuel cs)
    else do
      let ((), rest) ← lineEnd (c :: cs)
      before '\n' (multiBasicBody fuel rest)

/-- A string without escapes of several lines, after its opening quotes. -/
def multiLiteralBody : (fuel : Nat) → Reader (List Char)
  | 0, _ => none
  | _ + 1, [] => none
  | fuel + 1, c :: cs =>
    if c = apostrophe then
      match closing? apostrophe (c :: cs) with
      | some result => some result
      | none => before c (multiLiteralBody fuel cs)
    else if isText c then before c (multiLiteralBody fuel cs)
    else do
      let ((), rest) ← lineEnd (c :: cs)
      before '\n' (multiLiteralBody fuel rest)

/-- The text without a line end at its front. -/
def skipLineEnd (cs : List Char) : List Char :=
  match lineEnd cs with
  | some ((), rest) => rest
  | none => cs

/-- The characters of a string as the string they make. -/
def packed (r : Option (List Char × List Char)) : Option (String × List Char) :=
  r.map fun (text, rest) => (String.ofList text, rest)

/-- A string in single or double quotes on one line. -/
def lineString : Reader String
  | [] => none
  | c :: cs =>
    if c = quote then packed (basicBody (cs.length + 1) cs)
    else if c = apostrophe then packed (literalBody cs)
    else none

/-- A string in any of its four forms. -/
def string : Reader String := fun cs =>
  if [quote, quote, quote].isPrefixOf cs then
    packed (multiBasicBody (cs.length + 1) (skipLineEnd (cs.drop 3)))
  else if [apostrophe, apostrophe, apostrophe].isPrefixOf cs then
    packed (multiLiteralBody (cs.length + 1) (skipLineEnd (cs.drop 3)))
  else
    lineString cs

end Reader

end ChunkHeap.Toml

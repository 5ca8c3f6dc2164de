/-!
# Writing TOML strings

A string is written in the plainest form that can hold it (`StringForm.choose`):
double quotes on one line, single quotes on one line, then the two forms of
several lines, and escapes only where nothing else will do.
-/

namespace ChunkHeap.Toml
set_option autoImplicit false

/-- Whether a character needs an escape in every form: a control character other
than tab and newline. -/
def isCode (c : Char) : Bool :=
  (c.toNat < 0x20 && c ≠ '\t' && c ≠ '\n') || c.toNat = 0x7F

/-- The length of the longest run of a character. -/
def longestRun (q : Char) (cs : List Char) : Nat :=
  (cs.foldl (fun (best, run) c => if c = q then (max best (run + 1), run + 1) else (best, 0)) (0, 0)).1

/-- The ways to write a string. -/
inductive StringForm where
  /-- In double quotes, with escapes. -/
  | basic
  /-- In single quotes, as it is. -/
  | literal
  /-- In three double quotes, with escapes. -/
  | multiBasic
  /-- In three single quotes, as it is. -/
  | multiLiteral
deriving DecidableEq

/-- The first form, from plain to elaborate, that can hold a text. -/
def StringForm.choose (cs : List Char) : StringForm :=
  let codes := cs.any isCode
  let slashes := cs.contains (Char.ofNat 0x5C)
  let newline := cs.contains '\n'
  let single := longestRun (Char.ofNat 0x27) cs
  let double := longestRun (Char.ofNat 0x22) cs
  if !codes && !slashes && double = 0 && !newline then .basic
  else if !codes && single = 0 && !newline then .literal
  else if !codes && !slashes && double ≤ 2 then .multiBasic
  else if !codes && single ≤ 2 then .multiLiteral
  else if newline then .multiBasic
  else .basic

/-- A digit of a code point, in upper case. -/
def upperHexDigit (n : Nat) : Char :=
  if n < 10 then Char.ofNat ('0'.toNat + n) else Char.ofNat ('A'.toNat + (n - 10))

/-- A character other than the double quote and the newline, within double quotes. -/
def escape (c : Char) : List Char :=
  let backslash := Char.ofNat 0x5C
  if c.toNat = 0x08 then [backslash, 'b']
  else if c = '\t' then [backslash, 't']
  else if c.toNat = 0x0C then [backslash, 'f']
  else if c = '\r' then [backslash, 'r']
  else if c = backslash then [backslash, backslash]
  else if isCode c then
    [backslash, 'u', '0', '0', upperHexDigit (c.toNat / 16), upperHexDigit (c.toNat % 16)]
  else [c]

/-- A text within double quotes on one line. -/
def escapeLine (cs : List Char) : List Char :=
  cs.flatMap fun c =>
    if c.toNat = 0x22 then [Char.ofNat 0x5C, c]
    else if c = '\n' then [Char.ofNat 0x5C, 'n']
    else escape c

/-- A text within three double quotes: newlines stay, and so do quotes, except
that three in a row would close the string, so every third is escaped. -/
def escapeLines : (run : Nat) → List Char → List Char
  | _, [] => []
  | run, c :: cs =>
    if c.toNat = 0x22 then
      if run = 2 then Char.ofNat 0x5C :: c :: escapeLines 0 cs
      else c :: escapeLines (run + 1) cs
    else if c = '\n' then c :: escapeLines 0 cs
    else escape c ++ escapeLines 0 cs

/-- A string value as a document has it. A string of several lines starts on a
line of its own. -/
def writeString (text : String) : String :=
  let cs := text.toList
  let start := if cs.contains '\n' then ['\n'] else []
  let single := [Char.ofNat 0x27]
  let double := [Char.ofNat 0x22]
  let three (q : List Char) := q ++ q ++ q
  String.ofList <|
    match StringForm.choose cs with
    | .basic => double ++ escapeLine cs ++ double
    | .literal => single ++ cs ++ single
    | .multiBasic => three double ++ start ++ escapeLines 0 cs ++ three double
    | .multiLiteral => three single ++ start ++ cs ++ three single

/-- A Boolean value as a document has it. -/
def writeBool (b : Bool) : String :=
  if b then "true" else "false"

/-- An integer value, if it fits a signed 64-bit word. -/
def writeNat? (n : Nat) : Option String :=
  if n < 1 <<< 63 then some n.repr else none

end ChunkHeap.Toml

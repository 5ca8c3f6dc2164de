import ChunkHeap.Toml.Scan
import ChunkHeap.Toml.Value

/-!
# Numbers of TOML

Integers fit a signed 64-bit word. A floating-point number is kept as it is
written, and one that is too large for a double is refused (`overflows`), unless
it is negative.
-/

namespace ChunkHeap.Toml.Reader
set_option autoImplicit false

/-- One or more digits, with single underscores between two. Gives the digits. -/
def digits (base : Nat) : Reader (List Char)
  | [] => none
  | [c] => if isDigitIn base c then some ([c], []) else none
  | c :: d :: cs =>
    if isDigitIn base c then
      if d = '_' then before c (digits base cs)
      else if isDigitIn base d then before c (digits base (d :: cs))
      else some ([c], d :: cs)
    else
      none

/-- The digits of a decimal number: a leading zero stands alone. -/
def decimalDigits : Reader (List Char)
  | '0' :: cs => some (['0'], cs)
  | cs => digits 10 cs

/-- An optional sign; gives whether it is a minus. -/
def sign : List Char → Bool × List Char
  | '-' :: cs => (true, cs)
  | '+' :: cs => (false, cs)
  | cs => (false, cs)

/-- The exponent of a floating-point number. -/
def exponent : Reader Int
  | [] => none
  | c :: cs =>
    if c = 'e' || c = 'E' then do
      let (negative, unsigned) := sign cs
      let (ds, rest) ← digits 10 unsigned
      let n : Int := number 10 ds
      return (if negative then -n else n, rest)
    else
      none

/-- What makes a number a floating-point one: digits behind a point, an exponent, or both. -/
def fraction : Reader (List Char × Int)
  | '.' :: cs => do
    let (ds, rest) ← digits 10 cs
    match exponent rest with
    | some (e, rest) => return ((ds, e), rest)
    | none => return ((ds, 0), rest)
  | cs => (exponent cs).map fun (e, rest) => (([], e), rest)

/-- The least number that rounds to no finite double: half a unit in the last
place above the largest one. It has 309 digits. -/
def overflowBound : Nat :=
  1 <<< 1024 - 1 <<< 970

/-- Whether `coefficient · 10 ^ scale` is too large for a double. The place of its
first digit settles all but numbers of 309 digits before the point. -/
def overflows (coefficient : Nat) (scale : Int) : Bool :=
  let places : Int := (Nat.toDigits 10 coefficient).length + scale
  if coefficient = 0 || places < 309 then false
  else if 309 < places then true
  else overflowBound * Nat.pow 10 (-scale).toNat ≤ coefficient * Nat.pow 10 scale.toNat

/-- An integer that fits a signed 64-bit word. -/
def integer? (n : Int) : Option Value :=
  if -(1 <<< 63) ≤ n ∧ n < 1 <<< 63 then some (.integer n) else none

/-- The characters that a reader took off the front of `cs` when it left `rest`. -/
def taken (cs rest : List Char) : String :=
  String.ofList (cs.take (cs.length - rest.length))

/-- A decimal integer or a floating-point number. -/
def decimal : Reader Value := fun cs => do
  let (negative, unsigned) := sign cs
  if (literal ['i', 'n', 'f'] unsigned).isSome || (literal ['n', 'a', 'n'] unsigned).isSome then
    return (.float (taken cs (unsigned.drop 3)), unsigned.drop 3)
  else
    let (ds, rest) ← decimalDigits unsigned
    match fraction rest with
    | some ((fs, e), rest) =>
      if !negative && overflows (number 10 (ds ++ fs)) (e - fs.length) then none
      else return (.float (taken cs rest), rest)
    | none =>
      let n : Int := number 10 ds
      let v ← integer? (if negative then -n else n)
      return (v, rest)

/-- An integer in the given base, after the two characters that announce it. -/
def based (base : Nat) (cs : List Char) : Option (Value × List Char) := do
  let (ds, rest) ← digits base cs
  let v ← integer? (number base ds)
  return (v, rest)

/-- A number in any of its forms. -/
def numeral : Reader Value
  | '0' :: 'x' :: cs => based 16 cs
  | '0' :: 'o' :: cs => based 8 cs
  | '0' :: 'b' :: cs => based 2 cs
  | cs => decimal cs

end ChunkHeap.Toml.Reader

import ChunkHeap.Toml.Number

/-!
# Dates and times of TOML

A moment is a date, a time of day, or both with a `T` or a blank between them;
only the latter may have an offset from universal time. Dates exist in the
calendar, and a minute may have a leap second.
-/

namespace ChunkHeap.Toml.Reader
set_option autoImplicit false

/-- Whether February has 29 days. -/
def isLeapYear (year : Nat) : Bool :=
  year % 4 = 0 && (year % 100 ≠ 0 || year % 400 = 0)

/-- The number of days in a month, counted from one. -/
def monthLength (year month : Nat) : Nat :=
  if month = 2 then if isLeapYear year then 29 else 28
  else if month = 4 || month = 6 || month = 9 || month = 11 then 30
  else 31

/-- A number of exactly `width` digits, from `low` to `high`. -/
def padded (width low high : Nat) : Reader Nat := fun cs =>
  let ds := cs.take width
  let n := number 10 ds
  if ds.length = width && ds.all (isDigitIn 10) && low ≤ n && n ≤ high then some (n, cs.drop width)
  else none

/-- A year, a month and a day of that month. -/
def date : Reader Unit := fun cs => do
  let (year, cs) ← padded 4 0 9999 cs
  let ((), cs) ← literal ['-'] cs
  let (month, cs) ← padded 2 1 12 cs
  let ((), cs) ← literal ['-'] cs
  let (_, cs) ← padded 2 1 (monthLength year month) cs
  return ((), cs)

/-- The text without a decimal fraction at its front. -/
def skipDecimals : List Char → List Char
  | '.' :: c :: cs => if isDigitIn 10 c then cs.dropWhile (isDigitIn 10) else '.' :: c :: cs
  | cs => cs

/-- An hour and a minute. -/
def hourMinute : Reader Unit := fun cs => do
  let (_, cs) ← padded 2 0 23 cs
  let ((), cs) ← literal [':'] cs
  let (_, cs) ← padded 2 0 59 cs
  return ((), cs)

/-- A time of day, to the second or finer. -/
def time : Reader Unit := fun cs => do
  let ((), cs) ← hourMinute cs
  let ((), cs) ← literal [':'] cs
  let (_, cs) ← padded 2 0 60 cs
  return ((), skipDecimals cs)

/-- An offset from universal time. -/
def offset : Reader Unit
  | [] => none
  | c :: cs =>
    if c = 'Z' || c = 'z' then some ((), cs)
    else if c = '+' || c = '-' then hourMinute cs
    else none

/-- A time of day behind a date, and its offset if there is one. -/
def timeOfDate : Reader Unit
  | [] => none
  | c :: cs =>
    if c = 'T' || c = 't' || c = ' ' then do
      let ((), rest) ← time cs
      return (offset rest).getD ((), rest)
    else
      none

/-- A moment in any of its forms. -/
def moment : Reader Value := fun cs =>
  match date cs with
  | some ((), rest) =>
    let ((), rest) := (timeOfDate rest).getD ((), rest)
    some (.moment (taken cs rest), rest)
  | none => (time cs).map fun ((), rest) => (.moment (taken cs rest), rest)

end ChunkHeap.Toml.Reader

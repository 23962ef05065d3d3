import SlotJit.Decimal.Reader
import SlotJit.Toml.Lexeme
import SlotJit.Toml.Node

/-!
# Numbers, dates and times
-/

namespace SlotJit.Toml

open SlotJit.Decimal SlotJit.Ieee

/-- Digits with single underscores between them. -/
def digitRun (isDigit : Char → Bool) : List Char → Option (List Char × List Char)
  | [] => none
  | [c] => if isDigit c then some ([c], []) else none
  | c :: '_' :: cs =>
    if isDigit c then (digitRun isDigit cs).map fun (ds, rest) => (c :: ds, rest) else none
  | c :: d :: cs =>
    if isDigit c then
      if isDigit d then (digitRun isDigit (d :: cs)).map fun (ds, rest) => (c :: ds, rest)
      else some ([c], d :: cs)
    else none

/-- Whether a minus stands in front, and the rest after a sign. -/
def splitSign : List Char → Bool × List Char
  | '-' :: cs => (true, cs)
  | '+' :: cs => (false, cs)
  | cs => (false, cs)

/-- The digits of a decimal number. A zero in front stands alone. -/
def decimalRun (cs : List Char) : Option (List Char × List Char) :=
  match cs with
  | '0' :: rest => some (['0'], rest)
  | _ => digitRun Char.isDigit cs

/-- The value of digits in a base. -/
def ofBase (base : Nat) (cs : List Char) : Nat :=
  cs.foldl (fun n c => n * base + (hexDigit? c).getD 0) 0

/-- An integer of 64 bits. -/
def fitting? (n : Int) : Option Node :=
  if -0x8000000000000000 ≤ n ∧ n < 0x8000000000000000 then some (.integer (Int64.ofInt n))
  else none

/-- An integer in a base other than ten, after its mark. -/
def basedInteger (base : Nat) (cs : List Char) : Option (Node × List Char) := do
  let (ds, rest) ← digitRun (fun c => (hexDigit? c).any (· < base)) cs
  return (← fitting? (ofBase base ds), rest)

/-- An integer. -/
def integer (cs : List Char) : Option (Node × List Char) :=
  match cs with
  | '0' :: 'x' :: cs => basedInteger 16 cs
  | '0' :: 'o' :: cs => basedInteger 8 cs
  | '0' :: 'b' :: cs => basedInteger 2 cs
  | _ => do
    let (negative, cs) := splitSign cs
    let (ds, rest) ← decimalRun cs
    let n : Int := ofBase 10 ds
    return (← fitting? (if negative then -n else n), rest)

/-- The digits after a point, or none if there is no point. -/
def fractionPart (cs : List Char) : Option (List Char × List Char) :=
  match cs with
  | '.' :: cs => digitRun Char.isDigit cs
  | _ => some ([], cs)

/-- The exponent after its mark, or zero if there is no mark. -/
def exponentPart (cs : List Char) : Option (Int × List Char) :=
  match cs with
  | c :: rest =>
    if c = 'e' ∨ c = 'E' then do
      let (negative, rest) := splitSign rest
      let (ds, rest) ← digitRun Char.isDigit rest
      let exponent : Int := exponentOfDigits ds
      return (if negative then -exponent else exponent, rest)
    else some (0, cs)
  | [] => some (0, [])

/-- Whether a point or an exponent follows. -/
def isPointed : List Char → Bool
  | c :: _ => c = '.' || c = 'e' || c = 'E'
  | [] => false

/-- A number with a point or an exponent. One that is too large is refused unless it is negative. -/
def pointNumber (cs : List Char) : Option (Node × List Char) := do
  let (negative, cs) := splitSign cs
  let (whole, afterWhole) ← decimalRun cs
  if !isPointed afterWhole then none
  else
    let (fraction, afterFraction) ← fractionPart afterWhole
    let (exponent, rest) ← exponentPart afterFraction
    let d : Scientific :=
      { digits := ofDigits (whole ++ fraction), exponent := exponent - fraction.length }
    let bits := d.toBits .double negative
    if bits = Format.double.infinityBits then none else some (.float bits, rest)

/-- Infinity or not a number. -/
def specialNumber (cs : List Char) : Option (Node × List Char) :=
  let (negative, cs) := splitSign cs
  match cs with
  | 'i' :: 'n' :: 'f' :: rest =>
    some (.float (Format.double.withSign negative Format.double.infinityBits), rest)
  | 'n' :: 'a' :: 'n' :: rest => some (.float (Format.double.quietNaN negative 0), rest)
  | _ => none

/-! ### Dates and times -/

/-- A number of exactly so many digits, within bounds. -/
def fixedNumber (count low high : Nat) (cs : List Char) : Option (Nat × List Char) :=
  let ds := cs.take count
  let n := ofBase 10 ds
  if ds.length = count ∧ ds.all Char.isDigit ∧ low ≤ n ∧ n ≤ high then some (n, cs.drop count)
  else none

/-- The rest after a character. -/
def after? (c : Char) : List Char → Option (List Char)
  | d :: cs => if c = d then some cs else none
  | [] => none

/-- Days of a month. -/
def daysOf (year month : Nat) : Nat :=
  if month = 2 then
    if year % 4 = 0 ∧ (year % 100 ≠ 0 ∨ year % 400 = 0) then 29 else 28
  else if month = 4 ∨ month = 6 ∨ month = 9 ∨ month = 11 then 30
  else 31

/-- The rest after a date. -/
def date? (cs : List Char) : Option (List Char) := do
  let (year, cs) ← fixedNumber 4 0 9999 cs
  let (month, cs) ← fixedNumber 2 1 12 (← after? '-' cs)
  let (_, cs) ← fixedNumber 2 1 (daysOf year month) (← after? '-' cs)
  return cs

/-- The rest after a fraction of a second, if there is one. -/
def secondFraction? (cs : List Char) : Option (List Char) :=
  match cs with
  | '.' :: c :: rest => if c.isDigit then some (rest.dropWhile Char.isDigit) else some cs
  | _ => some cs

/-- The rest after a time. -/
def time? (cs : List Char) : Option (List Char) := do
  let (_, cs) ← fixedNumber 2 0 23 cs
  let (_, cs) ← fixedNumber 2 0 59 (← after? ':' cs)
  let (_, cs) ← fixedNumber 2 0 60 (← after? ':' cs)
  secondFraction? cs

/-- The rest after the offset of a time, if there is one. -/
def offset? (cs : List Char) : Option (List Char) :=
  match cs with
  | c :: rest =>
    if c = 'Z' ∨ c = 'z' then some rest
    else if c = '+' ∨ c = '-' then do
      let (_, cs) ← fixedNumber 2 0 23 rest
      let (_, cs) ← fixedNumber 2 0 59 (← after? ':' cs)
      return cs
    else some cs
  | [] => some []

/-- The rest after the time of a date, if there is one. -/
def timeOfDate? (cs : List Char) : Option (List Char) :=
  match cs with
  | c :: rest =>
    if c = 'T' ∨ c = 't' ∨ c = ' ' then
      match time? rest with
      | some rest => offset? rest
      | none => some cs
    else some cs
  | [] => some []

/-- A date with or without a time, or a time. -/
def dateTime (cs : List Char) : Option (Node × List Char) :=
  match date? cs with
  | some rest => (timeOfDate? rest).map (Node.dateTime, ·)
  | none => (time? cs).map (Node.dateTime, ·)

/-- A date or a number. -/
def number (cs : List Char) : Option (Node × List Char) :=
  dateTime cs <|> pointNumber cs <|> specialNumber cs <|> integer cs

end SlotJit.Toml

import SlotJit.Ieee.Format

/-!
# The shortest decimal that reads back

Of the decimals that round to a given binary number, `shortest` gives one with the fewest digits
and, among those, the nearest; of two equally near ones the larger.

The decimals that round to `m * 2 ^ e` form an interval around it whose ends belong to it when `m`
is even. For a growing number of digits the two neighbours of the number on the decimal grid are
tested against the interval; if any point of a grid lies inside, one of these two does.
-/

namespace SlotJit.Decimal

open SlotJit.Ieee

/-- The decimal number `digits * 10 ^ exponent`. -/
structure Scientific where
  digits : Nat
  exponent : Int
deriving DecidableEq, Repr

namespace Scientific

/-- The digits as text. -/
def text (d : Scientific) : List Char := Nat.toDigits 10 d.digits

/-- The exponent of the first digit in scientific form. -/
def leadingExponent (d : Scientific) : Int := d.exponent + (d.text.length : Int) - 1

/-- Drop zeros at the end of the digits, at most `fuel` of them. -/
def trimZeros : Nat → Scientific → Scientific
  | 0, d => d
  | fuel + 1, d =>
    if d.digits ≠ 0 ∧ d.digits % 10 = 0 then trimZeros fuel ⟨d.digits / 10, d.exponent + 1⟩ else d

end Scientific

/-- A positive number and the interval of the reals that round to it, over one denominator. -/
structure Interval where
  lower : Nat
  value : Nat
  upper : Nat
  denominator : Nat
  /-- Whether the ends belong to the interval. -/
  closed : Bool

namespace Interval

/-- The reals that round to `m * 2 ^ e`. Below the least significand of a binade the numbers lie
twice as close, so the lower end is half as far away. -/
def around (f : Format) (m : Nat) (e : Int) : Interval :=
  let below := if m = Nat.pow 2 f.fractionBits ∧ f.minExponent < e then 1 else 2
  let shift := e - 2
  let (scale, denominator) :=
    if 0 ≤ shift then (Nat.pow 2 shift.toNat, 1) else (1, Nat.pow 2 (-shift).toNat)
  { lower := (4 * m - below) * scale
    value := 4 * m * scale
    upper := (4 * m + 2) * scale
    denominator
    closed := m % 2 = 0 }

/-- Measure in units of `10 ^ k`. -/
def inUnits (i : Interval) (k : Int) : Interval :=
  if 0 ≤ k then { i with denominator := i.denominator * Nat.pow 10 k.toNat }
  else
    let scale := Nat.pow 10 (-k).toNat
    { i with lower := i.lower * scale, value := i.value * scale, upper := i.upper * scale }

/-- Whether the natural number `n` lies in the interval. -/
def contains (i : Interval) (n : Nat) : Bool :=
  let point := n * i.denominator
  if i.closed then i.lower ≤ point && point ≤ i.upper else i.lower < point && point < i.upper

/-- The exponent of the first digit of the interval's number. -/
def leadingExponent (i : Interval) : Int :=
  if i.denominator ≤ i.value then
    ((Nat.toDigits 10 (i.value / i.denominator)).length : Int) - 1
  else
    let length := (Nat.toDigits 10 (i.denominator / i.value)).length
    if i.denominator ≤ i.value * Nat.pow 10 (length - 1) then
      1 - (length : Int) else -(length : Int)

/-- The point of the grid of natural numbers next to the number that lies in the interval. -/
def gridPoint? (i : Interval) : Option Nat :=
  let below := i.value / i.denominator
  match i.contains below, i.contains (below + 1) with
  | true, true =>
    if 2 * (i.value % i.denominator) < i.denominator then some below else some (below + 1)
  | true, false => some below
  | false, true => some (below + 1)
  | false, false => none

end Interval

/-- Try the grids of `count`, `count + 1`, … digits, `fuel` of them. -/
def searchDigits (i : Interval) (leading : Int) : Nat → Nat → Option Scientific
  | 0, _ => none
  | fuel + 1, count =>
    let unit := leading - (count : Int) + 1
    match (i.inUnits unit).gridPoint? with
    | some digits => some ⟨digits, unit⟩
    | none => searchDigits i leading fuel (count + 1)

/-- The shortest decimal that rounds to the positive number `m * 2 ^ e` of the format. Seventeen
digits tell any two numbers of the formats apart, so the search finds one. -/
def shortest (f : Format) (m : Nat) (e : Int) : Scientific :=
  let i := Interval.around f m e
  let found := (searchDigits i i.leadingExponent 17 1).getD ⟨0, 0⟩
  found.trimZeros 20

end SlotJit.Decimal

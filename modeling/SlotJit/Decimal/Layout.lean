import SlotJit.Decimal.Shortest

/-!
# Writing floating point numbers

`Layout` holds the decisions about the written form. Values show at least one place after the point
and use scientific form for very small and very large magnitudes; the command line prints plain
digits.
-/

namespace SlotJit.Decimal

open SlotJit.Ieee

/-- How a number is laid out. -/
structure Layout where
  /-- Whole numbers end in `.0`. -/
  keepsPoint : Bool
  /-- Exponents of the first digit that are written positionally: from the first bound on and below
  the second. Without bounds, all of them. -/
  positional : Option (Int × Int)

namespace Layout

/-- The form of values in messages and listings. -/
def value : Layout := { keepsPoint := true, positional := some (-4, 16) }

/-- The form of results on the command line. -/
def plain : Layout := { keepsPoint := false, positional := none }

/-- Whether a number whose first digit has this exponent is written positionally. -/
def isPositional (l : Layout) (leading : Int) : Bool :=
  match l.positional with
  | none => true
  | some (low, high) => low ≤ leading && leading < high

/-- Digits with the point in its place. -/
def positionalText (l : Layout) (d : Scientific) : String :=
  let digits := d.text
  if 0 ≤ d.exponent then
    String.ofList (digits ++ List.replicate d.exponent.toNat '0')
      ++ (if l.keepsPoint then ".0" else "")
  else
    let places := (-d.exponent).toNat
    let padded := List.replicate (places + 1 - digits.length) '0' ++ digits
    let whole := padded.length - places
    String.ofList (padded.take whole) ++ "." ++ String.ofList (padded.drop whole)

/-- One digit, the others after a point, and the exponent. -/
def scientificText (d : Scientific) : String :=
  let fraction := d.text.drop 1
  String.ofList (d.text.take 1)
    ++ (if fraction.isEmpty then "" else "." ++ String.ofList fraction)
    ++ "e" ++ toString d.leadingExponent

/-- A decimal in this layout. -/
def decimalText (l : Layout) (d : Scientific) : String :=
  if l.isPositional d.leadingExponent then l.positionalText d else scientificText d

/-- The text of a bit pattern. -/
def text (l : Layout) (f : Format) (bits : Nat) : String :=
  match f.decode bits with
  | .nan .. => "NaN"
  | .infinity s => if s then "-inf" else "inf"
  | .finite s m e =>
    let magnitude :=
      if m = 0 then (if l.keepsPoint then "0.0" else "0") else l.decimalText (shortest f m e)
    if s then "-" ++ magnitude else magnitude

end Layout

end SlotJit.Decimal

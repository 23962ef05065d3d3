import SlotJit.Ieee.Rounding

/-!
# Conversions

Between the formats and integers. Integers and wider formats round to nearest; a NaN keeps its sign
and the upper bits of its fraction and becomes quiet; a number becomes an integer by dropping its
fraction.
-/

namespace SlotJit.Ieee.Format

/-- The pattern of the integer `x`. -/
def ofInt (f : Format) (x : Int) : Nat := f.round (x < 0) x.natAbs 1 0

/-- The fraction field of a NaN moved from width `source` to width `target`, upper bits first. -/
def movePayload (source target payload : Nat) : Nat :=
  if source ≤ target then payload * Nat.pow 2 (target - source)
  else payload / Nat.pow 2 (source - target)

/-- The pattern of `target` for what `bits` means in `source`. -/
def convert (source target : Format) (bits : Nat) : Nat :=
  match source.decode bits with
  | .nan s p => target.quietNaN s (movePayload source.fractionBits target.fractionBits p)
  | .infinity s => target.withSign s target.infinityBits
  | .finite s m e => target.round s m 1 e

/-- The integer that remains of a number without its fraction; nothing for a NaN or an infinity. -/
def truncate? (f : Format) (bits : Nat) : Option Int :=
  match f.decode bits with
  | .finite s m e =>
    let (n, d) := scaled m 1 e
    let magnitude : Int := (n / d : Nat)
    some (if s then -magnitude else magnitude)
  | _ => none

end SlotJit.Ieee.Format

import SlotJit.Ieee.Rounding

/-!
# Comparing bit patterns

Numbers are compared by value, so both zeros are equal, and a NaN is not comparable.
-/

namespace SlotJit.Ieee.Format

/-- How two finite numbers compare. -/
def compareFinite (s : Bool) (m : Nat) (e : Int) (t : Bool) (n : Nat) (g : Int) : Ordering :=
  let low := min e g
  let scale (negative : Bool) (significand : Nat) (exponent : Int) : Int :=
    let magnitude : Int := (significand * Nat.pow 2 (exponent - low).toNat : Nat)
      if negative then -magnitude else magnitude
  compare (scale s m e) (scale t n g)

/-- How two numbers compare; nothing if one of them is a NaN. -/
def compare? (f : Format) (a b : Nat) : Option Ordering :=
  match f.decode a, f.decode b with
  | .nan .., _ => none
  | _, .nan .. => none
  | .infinity s, .infinity t => some (if s = t then .eq else if s then .lt else .gt)
  | .infinity s, .finite .. => some (if s then .lt else .gt)
  | .finite .., .infinity t => some (if t then .gt else .lt)
  | .finite s m e, .finite t n g => some (compareFinite s m e t n g)

end SlotJit.Ieee.Format

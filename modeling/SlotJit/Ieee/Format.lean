/-!
# Binary floating point formats

A floating point number is carried as its bit pattern, a natural number. `Format` gives the two
field widths, `Format.decode` reads a pattern as a NaN, an infinity or an exact dyadic number
`± significand * 2 ^ exponent`, and the other definitions here build patterns from these parts.
-/

namespace SlotJit.Ieee

/-- A binary format: the number of significand bits, the hidden one included, and the width of the
exponent field. -/
structure Format where
  precision : Nat
  exponentBits : Nat
deriving DecidableEq, Repr

namespace Format

/-- The 32-bit format. -/
def single : Format := ⟨24, 8⟩

/-- The 64-bit format. -/
def double : Format := ⟨53, 11⟩

/-- Width of the fraction field. -/
def fractionBits (f : Format) : Nat := f.precision - 1

/-- The bit that a negative pattern has and a positive one has not. -/
def signBit (f : Format) : Nat := Nat.pow 2 (f.fractionBits + f.exponentBits)

/-- The pattern of positive infinity. Larger magnitudes are NaNs. -/
def infinityBits (f : Format) : Nat :=
  (Nat.pow 2 f.exponentBits - 1) * Nat.pow 2 f.fractionBits

/-- The fraction bit that marks a quiet NaN. -/
def quietBit (f : Format) : Nat := Nat.pow 2 (f.fractionBits - 1)

/-- The exponent of the least positive number, `2 ^ minExponent`. -/
def minExponent (f : Format) : Int :=
  3 - (Nat.pow 2 (f.exponentBits - 1) : Nat) - (f.precision : Nat)

end Format

/-- What a bit pattern stands for. -/
inductive Datum where
  /-- Not a number, with its fraction field. -/
  | nan (negative : Bool) (payload : Nat)
  | infinity (negative : Bool)
  /-- The number `± significand * 2 ^ exponent`. -/
  | finite (negative : Bool) (significand : Nat) (exponent : Int)
deriving DecidableEq, Repr

namespace Format

/-- Put a sign in front of a magnitude pattern. -/
def withSign (f : Format) (negative : Bool) (magnitude : Nat) : Nat :=
  if negative then f.signBit + magnitude else magnitude

/-- Read a bit pattern. Bits above the format's width are ignored. -/
def decode (f : Format) (bits : Nat) : Datum :=
  let negative := (bits / f.signBit) % 2 = 1
  let field := (bits / Nat.pow 2 f.fractionBits) % Nat.pow 2 f.exponentBits
  let fraction := bits % Nat.pow 2 f.fractionBits
  if field = Nat.pow 2 f.exponentBits - 1 then
    if fraction = 0 then .infinity negative else .nan negative fraction
  else if field = 0 then .finite negative fraction f.minExponent
  else .finite negative (Nat.pow 2 f.fractionBits + fraction) (f.minExponent + (field - 1 : Nat))

/-- Whether the pattern is a NaN. -/
def isNaN (f : Format) (bits : Nat) : Bool :=
  match f.decode bits with
  | .nan .. => true
  | _ => false

/-- The NaN that an invalid operation yields: negative, quiet, no further payload. -/
def invalid (f : Format) : Nat := f.withSign true (f.infinityBits + f.quietBit)

/-- The quiet NaN with the given sign and fraction field. -/
def quietNaN (f : Format) (negative : Bool) (payload : Nat) : Nat :=
  let payload := if payload < f.quietBit then payload + f.quietBit else payload
  f.withSign negative (f.infinityBits + payload)

end Format

end SlotJit.Ieee

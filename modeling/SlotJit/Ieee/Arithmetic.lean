import SlotJit.Ieee.Rounding

/-!
# Scalar arithmetic on bit patterns

Addition, subtraction, multiplication and division with one rounding. A NaN operand is the result,
made quiet, and the first operand wins over the second. An operation without a value (such as
`0 / 0`) gives `Format.invalid`.
-/

namespace SlotJit.Ieee

/-- `± significand * 2 ^ shift` as an integer. -/
def signedScaled (negative : Bool) (significand shift : Nat) : Int :=
  let magnitude : Int := (significand * Nat.pow 2 shift : Nat)
  if negative then -magnitude else magnitude

namespace Format

/-- The result of an operation whose operands include a NaN, if they do. -/
def propagate? (f : Format) (a b : Nat) : Option Nat :=
  match f.decode a, f.decode b with
  | .nan s p, _ => some (f.quietNaN s p)
  | _, .nan s p => some (f.quietNaN s p)
  | _, _ => none

/-- The sum of two data that are not NaNs. -/
def addData (f : Format) : Datum → Datum → Nat
  | .infinity s, .infinity t => if s = t then f.withSign s f.infinityBits else f.invalid
  | .infinity s, _ => f.withSign s f.infinityBits
  | _, .infinity t => f.withSign t f.infinityBits
  | .finite s m e, .finite t n g =>
    let low := min e g
    let sum := signedScaled s m (e - low).toNat + signedScaled t n (g - low).toNat
    if sum = 0 then f.withSign (s && t) 0
    else f.round (sum < 0) sum.natAbs 1 low
  | _, _ => f.invalid

/-- The same datum with the other sign. -/
def negateDatum : Datum → Datum
  | .nan s p => .nan (!s) p
  | .infinity s => .infinity (!s)
  | .finite s m e => .finite (!s) m e

/-- The product of two data that are not NaNs. -/
def mulData (f : Format) : Datum → Datum → Nat
  | .infinity s, .infinity t => f.withSign (s != t) f.infinityBits
  | .infinity s, .finite t n _ =>
    if n = 0 then f.invalid else f.withSign (s != t) f.infinityBits
  | .finite s m _, .infinity t =>
    if m = 0 then f.invalid else f.withSign (s != t) f.infinityBits
  | .finite s m e, .finite t n g => f.round (s != t) (m * n) 1 (e + g)
  | _, _ => f.invalid

/-- The quotient of two data that are not NaNs. -/
def divData (f : Format) : Datum → Datum → Nat
  | .infinity _, .infinity _ => f.invalid
  | .infinity s, .finite t _ _ => f.withSign (s != t) f.infinityBits
  | .finite s _ _, .infinity t => f.withSign (s != t) 0
  | .finite s m e, .finite t n g =>
    if n = 0 then
      if m = 0 then f.invalid else f.withSign (s != t) f.infinityBits
    else f.round (s != t) m n (e - g)
  | _, _ => f.invalid

/-- `a + b`. -/
def add (f : Format) (a b : Nat) : Nat :=
  (f.propagate? a b).getD (f.addData (f.decode a) (f.decode b))

/-- `a - b`. -/
def sub (f : Format) (a b : Nat) : Nat :=
  (f.propagate? a b).getD (f.addData (f.decode a) (negateDatum (f.decode b)))

/-- `a * b`. -/
def mul (f : Format) (a b : Nat) : Nat :=
  (f.propagate? a b).getD (f.mulData (f.decode a) (f.decode b))

/-- `a / b`. -/
def div (f : Format) (a b : Nat) : Nat :=
  (f.propagate? a b).getD (f.divData (f.decode a) (f.decode b))

end Format

end SlotJit.Ieee

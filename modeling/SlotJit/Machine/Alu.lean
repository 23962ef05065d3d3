import SlotJit.Machine.Word

/-!
# Integer operations of the processor

Results and condition flags of integer instructions, for operands of both sizes.
-/

namespace SlotJit.Machine

open SlotJit.X64

/-- The condition flags. -/
structure Flags where
  zero : Bool := false
  sign : Bool := false
  carry : Bool := false
  overflow : Bool := false
  parity : Bool := false
deriving DecidableEq, Repr, Inhabited

/-- Whether a condition holds of the flags. -/
def Flags.holds (f : Flags) : Cond → Bool
  | .o => f.overflow
  | .no => !f.overflow
  | .b => f.carry
  | .ae => !f.carry
  | .e => f.zero
  | .ne => !f.zero
  | .be => f.carry || f.zero
  | .a => !(f.carry || f.zero)
  | .s => f.sign
  | .ns => !f.sign
  | .p => f.parity
  | .np => !f.parity
  | .l => f.sign != f.overflow
  | .ge => f.sign == f.overflow
  | .le => f.zero || f.sign != f.overflow
  | .g => !f.zero && f.sign == f.overflow

variable {w : Nat} {size : Size}

/-- Whether the low byte has an even number of ones. Folding a number onto itself keeps the parity
of its number of ones. -/
def evenParity (x : BitVec w) : Bool :=
  let byte := x.toNat % 256
  let nibble := byte % 16 ^^^ byte / 16
  let pair := nibble % 4 ^^^ nibble / 4
  pair % 2 = pair / 2

/-- The flags of a result, given carry and overflow. -/
def resultFlags (result : BitVec w) (carry overflow : Bool) : Flags :=
  { zero := result.toNat == 0, sign := result.msb, carry, overflow, parity := evenParity result }

/-- The result and the flags of an operation. -/
def alu (op : AluOp) (a b : BitVec (width size)) : BitVec (width size) × Flags :=
  match op with
  | .add =>
    let r := sum a b
    (r, resultFlags r (r < a) (a.msb == b.msb && r.msb != a.msb))
  | .sub | .cmp =>
    let r := difference a b
    (r, resultFlags r (a < b) (a.msb != b.msb && r.msb != a.msb))
  | .and => (a &&& b, resultFlags (a &&& b) false false)
  | .or => (a ||| b, resultFlags (a ||| b) false false)
  | .xor => (a ^^^ b, resultFlags (a ^^^ b) false false)

/-- Whether an operation keeps its result. -/
def keepsResult : AluOp → Bool
  | .cmp => false
  | _ => true

/-- Two's complement negation. -/
def negate (a : BitVec w) : BitVec w × Flags :=
  (-a, resultFlags (-a) (a != 0) (a == BitVec.intMin w))

/-- The low half of a signed product; carry and overflow tell whether the high half matters. -/
def multiply (a b : BitVec (width size)) : BitVec (width size) × Flags :=
  let r := product a b
  let lost := signed r != signed a * signed b
  (r, resultFlags r lost lost)

/-- A shift by a distance below the width. A shift by zero keeps the flags; after others, carry and
overflow are clear. -/
def shift (op : ShiftOp) (flags : Flags) (a : BitVec w) (distance : Nat) : BitVec w × Flags :=
  let r := match op with
    | .shl => a <<< distance
    | .shr => a >>> distance
    | .sar => a.sshiftRight distance
  (r, if distance = 0 then flags else resultFlags r false false)

/-- Quotient and remainder of a signed division of a double-width number, towards zero; nothing for
a divisor of zero and for a quotient out of range. -/
def divide? (high low divisor : BitVec w) : Option (BitVec w × BitVec w) :=
  let dividend : Int := high.toInt * (Nat.pow 2 w : Nat) + low.toNat
  let quotient := dividend.tdiv divisor.toInt
  if divisor.toInt = 0 then none
  else if (BitVec.intMin w).toInt ≤ quotient ∧ quotient ≤ (BitVec.intMax w).toInt then
    some (BitVec.ofInt w quotient, BitVec.ofInt w (dividend.tmod divisor.toInt))
  else none

/-- All bits equal to the sign of a number. -/
def signFill (a : BitVec w) : BitVec w := if a.msb then BitVec.allOnes w else 0

end SlotJit.Machine

import SlotJit.Decimal.Shortest
import SlotJit.Ieee.Rounding

/-!
# Reading numbers

Integers of a fixed width with the reason why a text is none, and floating point numbers rounded to
nearest.
-/

namespace SlotJit.Decimal

open SlotJit.Ieee

/-- The value of a decimal digit. -/
def digit? (c : Char) : Option Nat := if c.isDigit then some (c.toNat - '0'.toNat) else none

/-- The number that digits stand for. -/
def ofDigits (cs : List Char) : Nat := cs.foldl (fun n c => n * 10 + (digit? c).getD 0) 0

/-- Why a text is no integer. -/
inductive IntegerError where
  | empty
  | invalidDigit
  | tooLarge
  | tooSmall
deriving DecidableEq, Repr

/-- The wording of an integer error. -/
def IntegerError.message : IntegerError → String
  | empty => "cannot parse integer from empty string"
  | invalidDigit => "invalid digit found in string"
  | tooLarge => "number too large to fit in target type"
  | tooSmall => "number too small to fit in target type"

/-- Add a digit to a number on the side of its sign. It is checked to be a digit before the sum is
checked to fit. -/
def addDigit (width : Nat) (negative : Bool) (n : Int) (c : Char) : Except IntegerError Int :=
  match digit? c with
  | none => .error .invalidDigit
  | some d =>
    let sum := if negative then n * 10 - d else n * 10 + d
    if sum < (BitVec.intMin width).toInt then .error .tooSmall
    else if (BitVec.intMax width).toInt < sum then .error .tooLarge
    else .ok sum

/-- Digits as a number of a sign. -/
def readDigits (width : Nat) (negative : Bool) (cs : List Char) : Except IntegerError Int :=
  if cs.isEmpty then .error .invalidDigit else cs.foldlM (addDigit width negative) 0

/-- Read a signed integer of a width: digits, with a sign in front or none. -/
def readInteger (width : Nat) (text : String) : Except IntegerError Int :=
  match text.toList with
  | [] => .error .empty
  | '+' :: cs => readDigits width false cs
  | '-' :: cs => readDigits width true cs
  | cs => readDigits width false cs

/-! ### Floating point -/

/-- Why a text is no floating point number. -/
inductive FloatError where
  | empty
  | invalid
deriving DecidableEq, Repr

/-- The wording of a floating point error. -/
def FloatError.message : FloatError → String
  | empty => "cannot parse float from empty string"
  | invalid => "invalid float literal"

/-- The digits of an exponent, of which those after the fifth significant one do not count. -/
def exponentOfDigits (cs : List Char) : Nat :=
  cs.foldl (fun n c => if n < 0x10000 then n * 10 + (digit? c).getD 0 else n) 0

/-- The exponent that ends a number: nothing, or a mark, a sign or none, and digits. -/
def readExponent? : List Char → Option Int
  | [] => some 0
  | c :: cs =>
    let (negative, cs) := match cs with
      | '-' :: cs => (true, cs)
      | '+' :: cs => (false, cs)
      | cs => (false, cs)
    if (c = 'e' ∨ c = 'E') ∧ cs ≠ [] ∧ cs.all Char.isDigit then
      let exponent : Int := exponentOfDigits cs
      some (if negative then -exponent else exponent)
    else none

/-- An unsigned decimal: digits with a point among, before or after them, and an exponent. -/
def readDecimal? (cs : List Char) : Option Scientific :=
  let whole := cs.takeWhile Char.isDigit
  let (fraction, rest) := match cs.dropWhile Char.isDigit with
    | '.' :: rest => (rest.takeWhile Char.isDigit, rest.dropWhile Char.isDigit)
    | rest => ([], rest)
  if whole = [] ∧ fraction = [] then none
  else
    (readExponent? rest).map fun exponent =>
      { digits := ofDigits (whole ++ fraction), exponent := exponent - fraction.length }

/-- First digits from this power of ten on are infinite in every format, and those below its inverse
are zero. -/
def decisiveExponent : Int := 400

/-- The pattern nearest to a decimal. -/
def Scientific.toBits (f : Format) (negative : Bool) (d : Scientific) : Nat :=
  if d.digits = 0 ∨ d.leadingExponent < -decisiveExponent then f.withSign negative 0
  else if decisiveExponent < d.leadingExponent then f.withSign negative f.infinityBits
  else if 0 ≤ d.exponent then f.round negative (d.digits * Nat.pow 10 d.exponent.toNat) 1 0
  else f.round negative d.digits (Nat.pow 10 (-d.exponent).toNat) 0

/-- The pattern of an unsigned number or name of a number, in any case of its letters, with a
sign. -/
def readUnsigned? (f : Format) (negative : Bool) (cs : List Char) : Option Nat :=
  match readDecimal? cs with
  | some d => some (d.toBits f negative)
  | none =>
    let word := cs.map Char.toLower
    if word = "inf".toList ∨ word = "infinity".toList then some (f.withSign negative f.infinityBits)
    else if word = "nan".toList then some (f.quietNaN negative 0)
    else none

/-- Read a floating point number. -/
def readFloat (f : Format) (text : String) : Except FloatError Nat :=
  let unsigned (negative : Bool) (cs : List Char) : Except FloatError Nat :=
    match readUnsigned? f negative cs with
    | some bits => .ok bits
    | none => .error .invalid
  match text.toList with
  | [] => .error .empty
  | '+' :: cs => unsigned false cs
  | '-' :: cs => unsigned true cs
  | cs => unsigned false cs

end SlotJit.Decimal

import SlotJit.ClassData.ValueType

/-!
# Operations on values

The arithmetic, conversions and conditions that bytecode and slot code share, each named once and
tied to the types it works on.
-/

namespace SlotJit

/-- The integer types with arithmetic of their own. -/
inductive Integral where
  | int
  | long
deriving DecidableEq, Repr, Inhabited

/-- The floating point types. -/
inductive Floating where
  | float
  | double
deriving DecidableEq, Repr, Inhabited

/-- Integer types that values are cut down to. -/
inductive Narrow where
  | byte
  | char
  | short
deriving DecidableEq, Repr, Inhabited

/-- Integer operations with two operands. -/
inductive IntOp where
  | add
  | sub
  | mul
  | div
  | rem
  | shl
  | shr
  | ushr
  | and
  | or
  | xor
deriving DecidableEq, Repr, Inhabited

/-- Floating point operations with two operands. -/
inductive FloatOp where
  | add
  | sub
  | mul
  | div
deriving DecidableEq, Repr, Inhabited

/-- Conversions between numeric types. -/
inductive Conversion where
  /-- Int to long. -/
  | widen
  /-- Long to int, keeping the low half. -/
  | wrap
  | toFloating (source : Integral) (target : Floating)
  | toIntegral (source : Floating) (target : Integral)
  /-- To the given floating point type from the other one. -/
  | resize (target : Floating)
  /-- Cut an int down and extend it again. -/
  | narrow (target : Narrow)
deriving DecidableEq, Repr, Inhabited

/-- What a conditional branch asks of two compared values. -/
inductive Condition where
  | eq
  | ne
  | lt
  | ge
  | gt
  | le
deriving DecidableEq, Repr, Inhabited

namespace Integral

/-- The value type of an integer type. -/
def valueType : Integral → ValueType
  | int => .int
  | long => .long

end Integral

namespace Floating

/-- The value type of a floating point type. -/
def valueType : Floating → ValueType
  | float => .float
  | double => .double

/-- The other floating point type. -/
def other : Floating → Floating
  | float => double
  | double => float

end Floating

namespace IntOp

/-- Whether the right operand is a distance to shift by, which is an int for both widths. -/
def isShift : IntOp → Bool
  | shl | shr | ushr => true
  | _ => false

end IntOp

namespace Conversion

/-- The type converted from. -/
def sourceType : Conversion → ValueType
  | widen => .int
  | wrap => .long
  | toFloating source _ => source.valueType
  | toIntegral source _ => source.valueType
  | resize target => target.other.valueType
  | narrow _ => .int

/-- The type converted to. -/
def targetType : Conversion → ValueType
  | widen => .long
  | wrap => .int
  | toFloating _ target => target.valueType
  | toIntegral _ target => target.valueType
  | resize target => target.valueType
  | narrow _ => .int

end Conversion

end SlotJit

import SlotJit.ClassData.ValueType
import SlotJit.Decimal.Layout
import SlotJit.Text.Hex

/-!
# Values

What goes into compiled code as an argument and comes out as a result. Floating point numbers are
bit patterns and references are addresses of array headers, zero for null.
-/

namespace SlotJit.Engine

open SlotJit.Decimal SlotJit.Ieee

/-- A value with its type. -/
inductive Value where
  | int (value : Int32)
  | long (value : Int64)
  | float (bits : UInt32)
  | double (bits : UInt64)
  | ref (address : UInt64)
deriving DecidableEq

namespace Value

/-- The type of a value. -/
def valueType : Value → ValueType
  | int _ => .int
  | long _ => .long
  | float _ => .float
  | double _ => .double
  | ref _ => .ref

/-- The 64 bits that stand for a value in a register; the upper half of a narrow value is zero. -/
def bits : Value → UInt64
  | int value => value.toUInt32.toUInt64
  | long value => value.toUInt64
  | float bits => bits.toUInt64
  | double bits => bits
  | ref address => address

/-- The value of a type that a register holds. -/
def ofBits (ty : ValueType) (bits : UInt64) : Value :=
  match ty with
  | .int => int bits.toUInt32.toInt32
  | .long => long bits.toInt64
  | .float => float bits.toUInt32
  | .double => double bits
  | .ref => ref bits

/-- The value as messages show it. -/
def text : Value → String
  | int value => toString value.toInt
  | long value => toString value.toInt ++ "L"
  | float bits => Layout.value.text .single bits.toNat ++ "f"
  | double bits => Layout.value.text .double bits.toNat
  | ref address => if address = 0 then "null" else "ref@0x" ++ Text.hex address.toNat

end Value

end SlotJit.Engine

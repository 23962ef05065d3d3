/-!
# Types of values

`ValueType` is the type a value has on the operand stack and in a slot. `FieldType` is a type as
declarations write it; several field types share one value type.
-/

namespace SlotJit

/-- The type of a value on the operand stack or in a slot. -/
inductive ValueType where
  | int
  | long
  | float
  | double
  | ref
deriving DecidableEq, Repr, Inhabited

namespace ValueType

/-- The name messages use. -/
def name : ValueType → String
  | int => "int"
  | long => "long"
  | float => "float"
  | double => "double"
  | ref => "reference"

/-- Long and double values take two local variable indices and two words of the operand stack. -/
def isWide : ValueType → Bool
  | long | double => true
  | int | float | ref => false

/-- Number of local variable indices, or operand stack words, a value takes. -/
def words (ty : ValueType) : Nat := if ty.isWide then 2 else 1

/-- Floating point values travel in vector registers. -/
def isFloating : ValueType → Bool
  | float | double => true
  | int | long | ref => false

end ValueType

/-- A type as declarations write it. -/
inductive FieldType where
  | byte
  | char
  | double
  | float
  | int
  | long
  | short
  | boolean
  | object (className : String)
  | array (element : FieldType)
deriving DecidableEq, Repr, Inhabited

namespace FieldType

/-- The type of the values of a field type. -/
def valueType : FieldType → ValueType
  | byte | char | int | short | boolean => .int
  | long => .long
  | float => .float
  | double => .double
  | object _ | array _ => .ref

/-- The type as people read it, such as `int[]`. -/
def text : FieldType → String
  | byte => "byte"
  | char => "char"
  | double => "double"
  | float => "float"
  | int => "int"
  | long => "long"
  | short => "short"
  | boolean => "boolean"
  | object className => className
  | array element => element.text ++ "[]"

end FieldType

end SlotJit

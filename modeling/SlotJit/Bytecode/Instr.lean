import SlotJit.Operation

/-!
# Bytecode instructions

`Instr` is what an instruction does, with its operands read. Instructions that differ only in how
they spell an operand, such as a local variable index in the opcode or after it, are one
constructor.
-/

namespace SlotJit

/-- A value written into code. Floating point numbers are bit patterns. -/
inductive Literal where
  | int (value : Int32)
  | long (value : Int64)
  | float (bits : UInt32)
  | double (bits : UInt64)
  | null
deriving DecidableEq

/-- The type of a literal. -/
def Literal.valueType : Literal → ValueType
  | int _ => .int
  | long _ => .long
  | float _ => .float
  | double _ => .double
  | null => .ref

namespace Bytecode

/-- What a conditional branch compares: one int with zero, two ints, two references, or one
reference with null. -/
inductive Comparison where
  | zero
  | ints
  | refs
  | null
deriving DecidableEq, Repr

/-- A bytecode instruction. Displacements count from the instruction's own position. -/
inductive Instr where
  | nop
  | push (value : Literal)
  /-- Push a constant of the pool; `wide` constants take two words. -/
  | pushConstant (index : UInt16) (wide : Bool)
  | load (ty : ValueType) (index : Nat)
  | store (ty : ValueType) (index : Nat)
  | increment (index : Nat) (delta : Int8)
  | pop
  | pop2
  | dup
  | dupX1
  | dup2
  | swap
  | binary (ty : Integral) (op : IntOp)
  | negate (ty : Integral)
  | floatBinary (ty : Floating) (op : FloatOp)
  | floatNegate (ty : Floating)
  | convert (conversion : Conversion)
  | compareLong
  | branch (comparison : Comparison) (condition : Condition) (displacement : Int)
  | jump (displacement : Int)
  | ret (ty : Option ValueType)
  | invokeStatic (index : UInt16)
  | newArray (elementCode : UInt8)
  | arrayLength
  | arrayLoad
  | arrayStore
  /-- An assigned opcode that has no lowering. -/
  | unsupported
deriving DecidableEq

/-- Where a branch or jump goes, relative to itself. -/
def Instr.displacement? : Instr → Option Int
  | branch _ _ displacement => some displacement
  | jump displacement => some displacement
  | _ => none

end Bytecode

end SlotJit

import SlotJit.Bytecode.Stream
import SlotJit.ClassData.ConstantPool

/-!
# Lowering errors

Why a method's bytecode cannot be lowered. All but the last two are faults of the bytecode and name
the position of the instruction.
-/

namespace SlotJit.Lowering

/-- Why bytecode cannot be lowered. -/
inductive Error where
  | stream (cause : Bytecode.StreamError)
  | unsupportedOpcode (pc : Nat) (mnemonic : String)
  | stackUnderflow (pc : Nat)
  | stackOverflow (pc : Nat) (maxStack : UInt16)
  | localOutOfRange (pc : Nat) (index : Nat) (maxLocals : UInt16)
  | typeMismatch (pc : Nat) (expected found : ValueType)
  | flagsAsValue (pc : Nat)
  | flagsClobbered (pc : Nat)
  | stackMismatch (pc : Nat)
  | badConstant (pc : Nat) (index : UInt16)
  | unresolvedMethod (pc : Nat) (member : MemberRef)
  | notStatic (pc : Nat) (member : MemberRef)
  | unsupportedArrayType (pc : Nat) (code : UInt8)
  /-- A temporary was given back twice. -/
  | releasedTwice
  /-- The count of words on the stack fell below zero. -/
  | depthUnderflow
deriving DecidableEq, Repr

/-- The wording of a lowering error. -/
def Error.message : Error → String
  | stream cause => cause.message
  | unsupportedOpcode pc mnemonic => s!"pc {pc}: unsupported opcode {mnemonic}"
  | stackUnderflow pc => s!"pc {pc}: operand stack underflow"
  | stackOverflow pc maxStack => s!"pc {pc}: operand stack exceeds max_stack {maxStack.toNat}"
  | localOutOfRange pc index maxLocals =>
    s!"pc {pc}: local {index} out of range (max_locals {maxLocals.toNat})"
  | typeMismatch pc expected found =>
    s!"pc {pc}: expected " ++ expected.name ++ " on the stack, found " ++ found.name
  | flagsAsValue pc => s!"pc {pc}: condition flags used as a value"
  | flagsClobbered pc => s!"pc {pc}: condition flags clobbered before use"
  | stackMismatch pc => s!"pc {pc}: inconsistent operand stack at block entry"
  | badConstant pc index => s!"pc {pc}: bad constant pool entry #{index.toNat}"
  | unresolvedMethod pc member =>
    s!"pc {pc}: unresolved method " ++ member.className ++ "." ++ member.name ++ member.descriptor
  | notStatic pc member =>
    s!"pc {pc}: " ++ member.className ++ "." ++ member.name ++ " is not static"
  | unsupportedArrayType pc code => s!"pc {pc}: unsupported array type {code.toNat}"
  | releasedTwice => "temporary released twice"
  | depthUnderflow => "stack depth below zero"

end SlotJit.Lowering

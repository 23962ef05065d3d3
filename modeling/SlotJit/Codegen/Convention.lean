import SlotJit.CodeMemory.Region
import SlotJit.Ir.Body
import SlotJit.X64.Assembly

/-!
# Conventions of compiled code

A frame is a run of slots of 16 bytes: scalars lie in the lower half of a slot and references in the
upper half. The frame base is in `rsi`, the running environment in `r12`, and `rax`, `rcx`, `rdx`,
`xmm0` and `xmm1` are scratch. The word at the top of the native stack keeps the frame base around
calls to host functions.

A caller writes the arguments into the slots above its own frame, stores the address to go on at
just below the callee's frame, and jumps; the callee returns by jumping there.
-/

namespace SlotJit.Codegen

open SlotJit.Ir SlotJit.X64

/-- Why a call cannot be compiled. -/
inductive CallObstacle where
  | tooManyArguments
  | floatingPoint
deriving DecidableEq, Repr

/-- The wording of an obstacle. -/
def CallObstacle.message : CallObstacle → String
  | tooManyArguments => "more than six arguments"
  | floatingPoint => "floating point arguments or result"

/-- Why a method cannot be compiled. -/
inductive Error where
  /-- An instruction whose operands make no sense. -/
  | cannotAssemble (inst : Inst)
  | unsupportedCall (callee : String) (obstacle : CallObstacle)
  | unresolvedSymbol (id : SymbolId)
  | unregisteredNative (name : String)
  | emptyMethod
  | assembly (cause : AssemblyError)
  | memory (cause : CodeMemory.MemoryError)
  /-- A slot lies too far from its frame base. -/
  | slotOverflow
deriving DecidableEq

/-- The wording of a code generation error. -/
def Error.message : Error → String
  | cannotAssemble inst => "cannot assemble: " ++ inst.text
  | unsupportedCall callee obstacle =>
    "unsupported call to " ++ callee ++ ": " ++ obstacle.message
  | unresolvedSymbol id => "unresolved symbol " ++ id.text
  | unregisteredNative name => "native function " ++ name ++ " is not registered"
  | emptyMethod => "no code generated"
  | assembly cause => cause.message
  | memory cause => cause.message
  | slotOverflow => "slot out of reach"

/-- Bytes in a slot. -/
def slotSize : Int32 := 16

/-- Offset of the reference in a slot. -/
def refOffset : Int32 := 8

/-- Frame base. -/
def frameReg : Reg := .rsi

/-- Running environment. -/
def envReg : Reg := .r12

/-- Offset of the stack limit in an environment. -/
def limitOffset : Int32 := 0

/-- Offset of the address of the elements in an array header. -/
def arrayDataOffset : Int32 := 0

/-- Offset of the length in an array header. -/
def arrayLengthOffset : Int32 := 8

/-- Registers of the arguments of host functions, in order. -/
def argumentRegs : List Reg := [.rdi, .rsi, .rdx, .rcx, .r8, .r9]

/-- Address of the host function that makes int arrays. -/
def newIntArrayAddress : UInt64 := 0x48494a4b4c4d4e4f

/-- A signed 32-bit number, or an error if the number does not fit. -/
def displacement (n : Int) : Except Error Int32 :=
  if -0x80000000 ≤ n ∧ n < 0x80000000 then .ok (Int32.ofInt n) else .error .slotOverflow

/-- Offset of a slot from its frame base. The index is taken as a signed 32-bit number. -/
def slotDisp (index : Nat) : Except Error Int32 :=
  displacement ((Int32.ofNat index).toInt * slotSize.toInt)

/-- Operand size and offset within a slot of values of a type. -/
def location : ValueType → Size × Int32
  | .int | .float => (.dword, 0)
  | .long | .double => (.qword, 0)
  | .ref => (.qword, refOffset)

/-- Operand size of values of a type. -/
def sizeOf (ty : ValueType) : Size := (location ty).1

/-- A place relative to the frame base. -/
def frameMem (disp : Int32) : Mem := { base := frameReg, disp }

/-- Precision of values of a floating point type. -/
def precisionOf : Floating → Precision
  | .float => .single
  | .double => .double

/-- The bits of a constant. -/
def constBits? : Operand → Option Int64
  | .int value => some value
  | .float bits => some bits.toInt32.toInt64
  | .double bits => some bits.toInt64
  | _ => none

/-- A number as a signed 32-bit number, if it is one. -/
def int32? (n : Int64) : Option Int32 :=
  if n.toInt32.toInt64 = n then some n.toInt32 else none

/-- A piece of a method's code. -/
inductive Piece where
  | instr (instr : Instr)
  | jump (cond : Option Cond) (label : Nat)
  | label (id : Nat)
  /-- Load the address of a method's code, which is not known until linking. -/
  | loadCode (callee : SymbolId)
deriving DecidableEq

/-- The instruction that loads a code address; until linking it holds the packed id. -/
def loadCodeInstr (callee : SymbolId) : Instr := .movImm64 .rax callee.raw.toInt64

/-- The item of an assembly for a piece. -/
def Piece.item : Piece → Item
  | instr i => .ofBytes (encode i)
  | jump cond target => .jump cond target
  | label id => .label id
  | loadCode callee => .ofBytes (encode (loadCodeInstr callee))

end SlotJit.Codegen

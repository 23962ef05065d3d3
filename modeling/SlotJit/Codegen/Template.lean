import SlotJit.Codegen.Convention
import SlotJit.Tables.Context
import Std.Data.HashMap

/-!
# Code templates

Each slot instruction becomes a short sequence that loads its operands into scratch registers,
computes, and stores the result. There is no register allocation. A template that needs labels of
its own is given the first free one; `labelCount` tells how many it uses.
-/

namespace SlotJit.Codegen

open SlotJit.Ir SlotJit.Tables SlotJit.X64

/-- Addresses of host functions by full method name. -/
abbrev Natives := String → Option UInt64

/-- What the templates of a method know of their surroundings. -/
structure Site where
  context : Context
  natives : Natives
  /-- Number of slots of the method's frame. -/
  frameSlots : Nat

/-- Code, or the reason why there is none. -/
abbrev Code := Except Error (List Piece)

/-! ### Operands -/

/-- The operand of an instruction at a place. -/
def argument (inst : Inst) (index : Nat) : Except Error Operand :=
  match inst.args[index]? with
  | some arg => .ok arg
  | none => .error (.cannotAssemble inst)

/-- The slot an instruction writes to. -/
def dstSlot (inst : Inst) : Except Error Nat :=
  match inst.dst with
  | some (.slot index) => .ok index
  | _ => .error (.cannotAssemble inst)

/-- The bits of an operand, which has to be a constant. -/
def constant (inst : Inst) (operand : Operand) : Except Error Int64 :=
  match constBits? operand with
  | some bits => .ok bits
  | none => .error (.cannotAssemble inst)

/-- Load a constant into a register. -/
def loadImm (size : Size) (reg : Reg) (value : Int64) : Instr :=
  match size, int32? value with
  | .dword, _ => .movImm .dword reg value.toInt32
  | .qword, some imm => .movImm .qword reg imm
  | .qword, none => .movImm64 reg value

/-- Load an operand of a type into a register. -/
def load (inst : Inst) (ty : ValueType) (reg : Reg) : Operand → Code
  | .slot index => do
    let disp ← slotDisp index
    return [.instr (.load (sizeOf ty) reg (frameMem (disp + (location ty).2)))]
  | operand => do
    let bits ← constant inst operand
    return [.instr (loadImm (sizeOf ty) reg bits)]

/-- Store a register as the result, with a type. -/
def store (inst : Inst) (ty : ValueType) (reg : Reg) : Code := do
  let disp ← slotDisp (← dstSlot inst)
  return [.instr (.store (sizeOf ty) (frameMem (disp + (location ty).2)) reg)]

/-- Copy an operand of a type to a slot given by its offset. Only moves are used, so the condition
flags stay. -/
def copyTo (inst : Inst) (ty : ValueType) (src : Operand) (disp : Int32) : Code :=
  let dst := frameMem (disp + (location ty).2)
  match src with
  | .slot index => do
    let srcDisp ← slotDisp index
    return [.instr (.load (sizeOf ty) .rax (frameMem (srcDisp + (location ty).2))),
      .instr (.store (sizeOf ty) dst .rax)]
  | operand => do
    let bits ← constant inst operand
    match sizeOf ty, int32? bits with
    | .dword, _ => return [.instr (.storeImm .dword dst bits.toInt32)]
    | .qword, some imm => return [.instr (.storeImm .qword dst imm)]
    | .qword, none => return [.instr (.movImm64 .rax bits), .instr (.store .qword dst .rax)]

/-- Load a floating point operand into a vector register. -/
def loadXmm (inst : Inst) (ty : Floating) (xmm : Xmm) : Operand → Code
  | .slot index => do
    let disp ← slotDisp index
    return [.instr (.loadScalar (precisionOf ty) xmm (frameMem disp))]
  | operand => do
    let bits ← load inst ty.valueType .rax operand
    return bits ++ [.instr (.movToXmm (sizeOf ty.valueType) xmm .rax)]

/-- Store a vector register as the result. -/
def storeXmm (inst : Inst) (ty : Floating) (xmm : Xmm) : Code := do
  let disp ← slotDisp (← dstSlot inst)
  return [.instr (.storeScalar (precisionOf ty) (frameMem disp) xmm)]

/-! ### Moves and arithmetic -/

/-- Copy a value; a copy of a slot to itself is left out. -/
def moveTemplate (inst : Inst) (ty : ValueType) : Code := do
  let dst ← dstSlot inst
  let src ← argument inst 0
  if src = .slot dst then return []
  else copyTo inst ty src (← slotDisp dst)

/-- Apply an operation to `rax` and a second operand. -/
def aluOperand (inst : Inst) (op : AluOp) (size : Size) : Operand → Code
  | .slot index => do return [.instr (.aluLoad op size .rax (frameMem (← slotDisp index)))]
  | .int value =>
    match int32? value with
    | some imm => return [.instr (.aluImm op size .rax imm)]
    | none => return [.instr (.movImm64 .rcx value), .instr (.alu op size .rax .rcx)]
  | _ => .error (.cannotAssemble inst)

/-- Arithmetic with a memory form: in place where the first operand is the destination. -/
def aluTemplate (inst : Inst) (op : AluOp) (ty : ValueType) : Code := do
  let size := sizeOf ty
  let dst ← dstSlot inst
  let a ← argument inst 0
  let b ← argument inst 1
  let general : Code := do
    return (← load inst ty .rax a) ++ (← aluOperand inst op size b) ++ (← store inst ty .rax)
  if a = .slot dst then
    match b with
    | .int value =>
      match int32? value with
      | some imm => return [.instr (.aluStoreImm op size (frameMem (← slotDisp dst)) imm)]
      | none => general
    | .slot index =>
      let src ← slotDisp index
      return [.instr (.load size .rax (frameMem src)),
        .instr (.aluStore op size (frameMem (← slotDisp dst)) .rax)]
    | _ => general
  else general

/-- Multiplication. -/
def mulTemplate (inst : Inst) (ty : ValueType) : Code := do
  let a ← argument inst 0
  let b ← argument inst 1
  let left ← load inst ty .rax a
  let product ← match b with
    | .slot index => do
      pure [Piece.instr (.imulLoad (sizeOf ty) .rax (frameMem (← slotDisp index)))]
    | _ => do pure ((← load inst ty .rcx b) ++ [Piece.instr (.imul (sizeOf ty) .rax .rcx)])
  return left ++ product ++ (← store inst ty .rax)

/-- Division. The processor faults on the least number divided by minus one, which here is the least
number with remainder zero, so minus one as divisor has a path of its own. -/
def divTemplate (inst : Inst) (ty : ValueType) (remainder : Bool) (fresh : Nat) : Code := do
  let size := sizeOf ty
  let a ← argument inst 0
  let b ← argument inst 1
  let divisor ← load inst ty .rcx b
  let dividend ← load inst ty .rax a
  let result ← store inst ty .rax
  let divide := fresh
  let done := fresh + 1
  return divisor ++ dividend
    ++ [.instr (.aluImm .cmp size .rcx (-1)), .jump (some .ne) divide,
      .instr (if remainder then .alu .xor .dword .rax .rax else .neg size .rax),
      .jump none done, .label divide, .instr (.signExtendAcc size), .instr (.idiv size .rcx)]
    ++ (if remainder then [.instr (.mov size .rax .rdx)] else [])
    ++ .label done :: result

/-- Negation. -/
def negTemplate (inst : Inst) (ty : ValueType) : Code := do
  let a ← argument inst 0
  return (← load inst ty .rax a) ++ [.instr (.neg (sizeOf ty) .rax)] ++ (← store inst ty .rax)

/-- Shifts. The distance is an int, and the processor masks it to the width. -/
def shiftTemplate (inst : Inst) (op : ShiftOp) (ty : ValueType) : Code := do
  let a ← argument inst 0
  let b ← argument inst 1
  return (← load inst .int .rcx b) ++ (← load inst ty .rax a)
    ++ [.instr (.shift op (sizeOf ty) .rax)] ++ (← store inst ty .rax)

/-- An operation on two integers. -/
def arithTemplate (inst : Inst) (ty : ValueType) (fresh : Nat) : IntOp → Code
  | .add => aluTemplate inst .add ty
  | .sub => aluTemplate inst .sub ty
  | .and => aluTemplate inst .and ty
  | .or => aluTemplate inst .or ty
  | .xor => aluTemplate inst .xor ty
  | .mul => mulTemplate inst ty
  | .div => divTemplate inst ty false fresh
  | .rem => divTemplate inst ty true fresh
  | .shl => shiftTemplate inst .shl ty
  | .shr => shiftTemplate inst .sar ty
  | .ushr => shiftTemplate inst .shr ty

/-- The machine operation of a floating point operation. -/
def sseOp : FloatOp → SseOp
  | .add => .add
  | .sub => .sub
  | .mul => .mul
  | .div => .div

/-- An operation on two floating point numbers. -/
def floatArithTemplate (inst : Inst) (ty : Floating) (op : SseOp) : Code := do
  let a ← argument inst 0
  let b ← argument inst 1
  let left ← loadXmm inst ty xmm0 a
  let result ← match b with
    | .slot index => do
      pure [Piece.instr (.sseLoad op (precisionOf ty) xmm0 (frameMem (← slotDisp index)))]
    | _ => do
        pure ((← loadXmm inst ty xmm1 b) ++ [Piece.instr (.sse op (precisionOf ty) xmm0 xmm1)])
  return left ++ result ++ (← storeXmm inst ty xmm0)

/-- Floating point negation flips the sign bit, which keeps every other bit. -/
def floatNegTemplate (inst : Inst) (ty : Floating) : Code := do
  let a ← argument inst 0
  let flip := match ty with
    | .float => [Piece.instr (.aluImm .xor .dword .rax Int32.minValue)]
    | .double => [.instr (.movImm64 .rcx Int64.minValue), .instr (.alu .xor .qword .rax .rcx)]
  return (← load inst ty.valueType .rax a) ++ flip ++ (← store inst ty.valueType .rax)

/-! ### Conversions -/

/-- Floating point to integer, towards zero and to the nearest end of the range. The processor gives
the least number for anything out of range; not a number becomes zero and a positive number the
greatest one. -/
def toIntegralTemplate (inst : Inst) (source : Floating) (target : Integral)
    (fresh : Nat) : Code := do
  let a ← argument inst 0
  let size := sizeOf target.valueType
  let bits := sizeOf source.valueType
  let precision := precisionOf source
  let nan := fresh
  let done := fresh + 1
  let operand ← loadXmm inst source xmm0 a
  let result ← store inst target.valueType .rax
  let compareLeast := match target with
    | .int => [Piece.instr (.aluImm .cmp .dword .rax Int32.minValue)]
    | .long => [.instr (.movImm64 .rcx Int64.minValue), .instr (.alu .cmp .qword .rax .rcx)]
  let greatest : Instr := match target with
    | .int => .movImm .dword .rax Int32.maxValue
    | .long => .movImm64 .rax Int64.maxValue
  return operand ++ [.instr (.toInt precision size .rax xmm0)] ++ compareLeast
    ++ [.jump (some .ne) done, .instr (.ucomis precision xmm0 xmm0), .jump (some .p) nan,
      .instr (.movFromXmm bits .rcx xmm0), .instr (.test bits .rcx .rcx), .jump (some .s) done,
      .instr greatest, .jump none done, .label nan, .instr (.alu .xor .dword .rax .rax),
      .label done]
    ++ result

/-- The instruction that cuts an int down. -/
def narrowInstr : Narrow → Instr
  | .byte => .extend true .byte .rax .rax
  | .char => .extend false .word .rax .rax
  | .short => .extend true .word .rax .rax

/-- A conversion. -/
def convertTemplate (inst : Inst) (fresh : Nat) : Conversion → Code
  | .widen => do
    let a ← argument inst 0
    return (← load inst .int .rax a) ++ [.instr (.movSignExtend .rax .rax)] ++
      (← store inst .long .rax)
  | .wrap => do
    let a ← argument inst 0
    return (← load inst .int .rax a) ++ (← store inst .int .rax)
  | .narrow target => do
    let a ← argument inst 0
    return (← load inst .int .rax a) ++ [.instr (narrowInstr target)] ++ (← store inst .int .rax)
  | .toFloating source target => do
    let a ← argument inst 0
    return (← load inst source.valueType .rax a)
      ++ [.instr (.ofInt (precisionOf target) (sizeOf source.valueType) xmm0 .rax)]
      ++ (← storeXmm inst target xmm0)
  | .toIntegral source target => toIntegralTemplate inst source target fresh
  | .resize target => do
    let a ← argument inst 0
    return (← loadXmm inst target.other xmm0 a) ++
      [.instr (.convert (precisionOf target) xmm0 xmm0)] ++ (← storeXmm inst target xmm0)

/-! ### Control flow -/

/-- Compare two operands and leave the condition flags. -/
def compareTemplate (inst : Inst) (ty : ValueType) : Code := do
  let a ← argument inst 0
  let b ← argument inst 1
  let left ← load inst ty .rax a
  match b with
  | .slot index =>
    let disp ← slotDisp index
    return left ++ [.instr (.aluLoad .cmp (sizeOf ty) .rax (frameMem (disp + (location ty).2)))]
  | operand =>
    let bits ← constant inst operand
    match int32? bits with
    | some imm => return left ++ [.instr (.aluImm .cmp (sizeOf ty) .rax imm)]
    | none =>
      return left ++ [.instr (.movImm64 .rcx bits), .instr (.alu .cmp (sizeOf ty) .rax .rcx)]

/-- The label of a branch target, if it can be one. -/
def branchLabel? : Operand → Option Nat
  | .branch target => if 0 ≤ target ∧ target < 0x100000000 then some target.toNat else none
  | _ => none

/-- The machine condition of a condition. -/
def condOf : Condition → Cond
  | .eq => .e
  | .ne => .ne
  | .lt => .l
  | .ge => .ge
  | .gt => .g
  | .le => .le

/-- Jump, on a condition if one is given. -/
def jumpTemplate (inst : Inst) (condition : Option Condition) : Code :=
  match inst.args.head?.bind branchLabel? with
  | none => .error (.cannotAssemble inst)
  | some label =>
    match condition with
    | none => .ok [.jump none label]
    | some condition =>
      if inst.args[1]? = some .flags then .ok [.jump (some (condOf condition)) label]
      else .error (.cannotAssemble inst)

/-- Return, with a value of a type if one is given. -/
def returnTemplate (inst : Inst) (ty : Option ValueType) : Code := do
  let value ← match ty with
    | some ty => do load inst ty .rax (← argument inst 0)
    | none => pure []
  return value ++ [.instr (.jmpMem (frameMem (-slotSize)))]

/-! ### Calls -/

/-- The method that a call names. -/
def calleeOf (site : Site) (inst : Inst) : Except Error Method :=
  match inst.args.head? with
  | some (.symbol id) =>
    match site.context.method? id with
    | some method => .ok method
    | none => .error (.unresolvedSymbol id)
  | _ => .error (.cannotAssemble inst)

/-- Store the result of a call, if the callee has one. -/
def storeResult (inst : Inst) (callee : Method) : Code :=
  match callee.signature.resultType with
  | some ty => store inst ty .rax
  | none => .ok []

/-- Copy arguments to their slots in a frame that starts at an offset. -/
def passArguments (inst : Inst) (outgoing : Int32) :
    List (Operand × ValueType × Nat) → Code
  | [] => .ok []
  | (arg, ty, index) :: rest => do
    let disp ← displacement (outgoing.toInt + (← slotDisp index).toInt)
    return (← copyTo inst ty arg disp) ++ (← passArguments inst outgoing rest)

/-- Call a compiled method. Its frame starts one slot above the caller's, and that slot holds the
address to go on at: the end of the jump, which follows a store of four bytes, a load of ten and is
itself of two. -/
def callStaticTemplate (site : Site) (inst : Inst) : Code := do
  let callee ← calleeOf site inst
  let types := callee.signature.paramTypes
  let args := inst.args.drop 1
  if args.length ≠ types.length then throw (.cannotAssemble inst)
  let outgoing ← displacement ((← slotDisp site.frameSlots).toInt + slotSize.toInt)
  let passed ← passArguments inst outgoing (args.zip (types.zip callee.signature.paramLocals))
  return passed
    ++ [.instr (.aluImm .add .qword frameReg outgoing), .instr (.leaRip .rax 16),
      .instr (.store .qword (frameMem (-slotSize)) .rax), .loadCode callee.id,
      .instr (.jmpReg .rax), .instr (.aluImm .sub .qword frameReg outgoing)]
    ++ (← storeResult inst callee)

/-- The word at the top of the native stack. -/
def spillMem : Mem := { base := .rsp, disp := 0 }

/-- Keep the frame base around a call of a host function. -/
def saveFrame : Piece := .instr (.store .qword spillMem frameReg)

/-- Call a host function and get the frame base back. -/
def callHost (address : UInt64) : List Piece :=
  [.instr (.movImm64 .rax address.toInt64), .instr (.callReg .rax),
    .instr (.load .qword frameReg spillMem)]

/-- Only the low bits of a narrow result of a host function are defined. -/
def extendResult : Option FieldType → List Piece
  | some .boolean => [.instr (.extend false .byte .rax .rax)]
  | some .byte => [.instr (.extend true .byte .rax .rax)]
  | some .char => [.instr (.extend false .word .rax .rax)]
  | some .short => [.instr (.extend true .word .rax .rax)]
  | _ => []

/-- Load arguments into registers. -/
def loadArguments (inst : Inst) : List (Reg × ValueType × Operand) → Code
  | [] => .ok []
  | (reg, ty, arg) :: rest => do return (← load inst ty reg arg) ++ (← loadArguments inst rest)

/-- The order in which arguments are loaded: the second register is the frame base, so it comes
last. -/
def loadOrder {α : Type} : List α → List α
  | first :: second :: rest => first :: rest ++ [second]
  | args => args

/-- Call a host function. -/
def callNativeTemplate (site : Site) (inst : Inst) : Code := do
  let callee ← calleeOf site inst
  let name := site.context.qualifiedName callee.id
  let types := callee.signature.paramTypes
  if argumentRegs.length < types.length then throw (.unsupportedCall name .tooManyArguments)
  if types.any ValueType.isFloating || callee.signature.resultType.any ValueType.isFloating then
    throw (.unsupportedCall name .floatingPoint)
  let some address := site.natives name | throw (.unregisteredNative name)
  let args := inst.args.drop 1
  if args.length ≠ types.length then throw (.cannotAssemble inst)
  let loads ← loadArguments inst (loadOrder (argumentRegs.zip (types.zip args)))
  return saveFrame :: loads ++ callHost address ++ extendResult callee.signature.result
    ++ (← storeResult inst callee)

/-! ### Arrays -/

/-- Make an int array. The host function answers null for a negative length, which traps. -/
def newIntArrayTemplate (inst : Inst) (fresh : Nat) : Code := do
  let length ← argument inst 0
  let loads ← load inst .int .rsi length
  return [saveFrame, .instr (.mov .qword .rdi envReg)] ++ loads ++ callHost newIntArrayAddress
    ++ [.instr (.test .qword .rax .rax), .jump (some .ne) fresh, .instr .trap, .label fresh]
    ++ (← store inst .ref .rax)

/-- Leave the address of an array's elements in `rax` and an index in `rcx`. An index out of range
traps; the unsigned compare finds negative ones too. -/
def arrayElement (inst : Inst) (array index : Operand) (fresh : Nat) : Code := do
  return (← load inst .ref .rax array) ++ (← load inst .int .rcx index)
    ++ [.instr (.aluLoad .cmp .dword .rcx { base := .rax, disp := arrayLengthOffset }),
      .jump (some .b) fresh, .instr .trap, .label fresh,
      .instr (.load .qword .rax { base := .rax, disp := arrayDataOffset })]

/-- The element that `rax` and `rcx` stand for. -/
def elementMem : Mem := { base := .rax, index := some ⟨.rcx, .four, by decide⟩, disp := 0 }

/-- Length of an array. -/
def arrayLenTemplate (inst : Inst) : Code := do
  let a ← argument inst 0
  return (← load inst .ref .rax a)
    ++ [.instr (.load .dword .rax { base := .rax, disp := arrayLengthOffset })]
    ++ (← store inst .int .rax)

/-- Read an element. -/
def arrayGetTemplate (inst : Inst) (fresh : Nat) : Code := do
  let array ← argument inst 0
  let index ← argument inst 1
  return (← arrayElement inst array index fresh) ++ [.instr (.load .dword .rax elementMem)]
    ++ (← store inst .int .rax)

/-- Write an element. -/
def arraySetTemplate (inst : Inst) (fresh : Nat) : Code := do
  let array ← argument inst 0
  let index ← argument inst 1
  let value ← argument inst 2
  return (← arrayElement inst array index fresh) ++ (← load inst .int .rdx value)
    ++ [.instr (.store .dword elementMem .rdx)]

/-! ### All instructions -/

/-- Number of labels that the template of a kind uses. -/
def labelCount : Kind → Nat
  | .arith _ .div | .arith _ .rem => 2
  | .convert (.toIntegral ..) => 2
  | .newIntArray | .intArrayGet | .intArraySet => 1
  | _ => 0

/-- The code of an instruction; `fresh` is its first free label. -/
def template (site : Site) (fresh : Nat) (inst : Inst) : Code :=
  match inst.kind with
  | .move ty => moveTemplate inst ty
  | .arith ty op => arithTemplate inst ty.valueType fresh op
  | .neg ty => negTemplate inst ty.valueType
  | .floatArith ty op => floatArithTemplate inst ty (sseOp op)
  | .floatNeg ty => floatNegTemplate inst ty
  | .convert conversion => convertTemplate inst fresh conversion
  | .compare ty => compareTemplate inst ty.valueType
  | .jump => jumpTemplate inst none
  | .jumpIf condition => jumpTemplate inst (some condition)
  | .callStatic => callStaticTemplate site inst
  | .callNative => callNativeTemplate site inst
  | .ret ty => returnTemplate inst ty
  | .newIntArray => newIntArrayTemplate inst fresh
  | .arrayLen => arrayLenTemplate inst
  | .intArrayGet => arrayGetTemplate inst fresh
  | .intArraySet => arraySetTemplate inst fresh

end SlotJit.Codegen

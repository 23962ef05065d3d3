import SlotJit.X64.Register

/-!
# Machine instructions

The instructions that compiled code and the entry stub are made of.
-/

namespace SlotJit.X64

/-- Factor of an index register. -/
inductive Scale where
  | one
  | two
  | four
  | eight
deriving DecidableEq, Repr, Inhabited

namespace Scale

/-- The scale of a factor; every factor but one, two and four is taken as eight. -/
def ofFactor : Nat → Scale
  | 1 => one
  | 2 => two
  | 4 => four
  | _ => eight

/-- The factor of a scale. -/
def factor : Scale → Nat
  | one => 1
  | two => 2
  | four => 4
  | eight => 8

/-- The number of a scale in encodings. -/
def number : Scale → Nat
  | one => 0
  | two => 1
  | four => 2
  | eight => 3

/-- The scale of a number. -/
def ofNumber : Nat → Scale
  | 0 => one
  | 1 => two
  | 2 => four
  | _ => eight

@[simp] theorem ofNumber_number (s : Scale) : ofNumber s.number = s := by cases s <;> rfl

theorem number_lt (s : Scale) : s.number < 4 := by cases s <;> decide

end Scale

/-- A scaled index register. The stack pointer cannot be one. -/
structure Index where
  reg : Reg
  scale : Scale
  ne_rsp : reg ≠ .rsp
deriving DecidableEq

/-- The scaled index register, unless the register is the stack pointer. -/
def Index.of? (reg : Reg) (scale : Scale) : Option Index :=
  if h : reg ≠ .rsp then some ⟨reg, scale, h⟩ else none

/-- A memory operand: `[base + index * scale + disp]`. -/
structure Mem where
  base : Reg
  index : Option Index := none
  disp : Int32
deriving DecidableEq

/-- Width of a value that is extended to 32 bits. -/
inductive Part where
  | byte
  | word
deriving DecidableEq, Repr

/-- A machine instruction. Where there are two operands the first is the destination. -/
inductive Instr where
  | mov (size : Size) (dst src : Reg)
  | load (size : Size) (dst : Reg) (src : Mem)
  | store (size : Size) (dst : Mem) (src : Reg)
  /-- Store a constant, extended with its sign. -/
  | storeImm (size : Size) (dst : Mem) (imm : Int32)
  /-- Load a constant; 64 bits are filled with its sign. -/
  | movImm (size : Size) (dst : Reg) (imm : Int32)
  | movImm64 (dst : Reg) (imm : Int64)
  /-- Extend 32 bits with their sign to 64. -/
  | movSignExtend (dst src : Reg)
  /-- Extend a byte or a word to 32 bits, with its sign or with zeros. -/
  | extend (signed : Bool) (part : Part) (dst src : Reg)
  | lea (dst : Reg) (src : Mem)
  /-- The address at a distance from the end of this instruction. -/
  | leaRip (dst : Reg) (disp : Int32)
  | alu (op : AluOp) (size : Size) (dst src : Reg)
  | aluLoad (op : AluOp) (size : Size) (dst : Reg) (src : Mem)
  | aluStore (op : AluOp) (size : Size) (dst : Mem) (src : Reg)
  | aluImm (op : AluOp) (size : Size) (dst : Reg) (imm : Int32)
  | aluStoreImm (op : AluOp) (size : Size) (dst : Mem) (imm : Int32)
  | imul (size : Size) (dst src : Reg)
  | imulLoad (size : Size) (dst : Reg) (src : Mem)
  /-- Extend the accumulator with its sign into `rdx`. -/
  | signExtendAcc (size : Size)
  /-- Divide `rdx:rax`; the quotient goes to `rax`, the remainder to `rdx`. -/
  | idiv (size : Size) (src : Reg)
  | neg (size : Size) (dst : Reg)
  | shift (op : ShiftOp) (size : Size) (dst : Reg)
  | test (size : Size) (a b : Reg)
  | push (src : Reg)
  | pop (dst : Reg)
  | jmpReg (target : Reg)
  | jmpMem (target : Mem)
  | callReg (target : Reg)
  | ret
  /-- Raise an invalid opcode fault. -/
  | trap
  /-- Jump by a distance from the end of this instruction, on a condition if one is given. -/
  | jumpShort (cond : Option Cond) (disp : Int8)
  | jumpLong (cond : Option Cond) (disp : Int32)
  | loadScalar (precision : Precision) (dst : Xmm) (src : Mem)
  | storeScalar (precision : Precision) (dst : Mem) (src : Xmm)
  | sse (op : SseOp) (precision : Precision) (dst src : Xmm)
  | sseLoad (op : SseOp) (precision : Precision) (dst : Xmm) (src : Mem)
  /-- Convert a signed integer to floating point. -/
  | ofInt (precision : Precision) (size : Size) (dst : Xmm) (src : Reg)
  /-- Convert floating point to a signed integer, towards zero. -/
  | toInt (precision : Precision) (size : Size) (dst : Reg) (src : Xmm)
  | movToXmm (size : Size) (dst : Xmm) (src : Reg)
  | movFromXmm (size : Size) (dst : Reg) (src : Xmm)
  /-- Compare floating point numbers; the parity flag tells that one is not a number. -/
  | ucomis (precision : Precision) (a b : Xmm)
  /-- Convert to the given precision from the other one. -/
  | convert (target : Precision) (dst src : Xmm)
deriving DecidableEq

end SlotJit.X64

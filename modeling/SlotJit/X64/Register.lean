/-!
# Registers and operand sizes

The registers of the processor, and the small choices that several instructions share: operand size,
floating point precision, condition, and the operation of an instruction family. Each comes with the
number that encodings use for it.
-/

namespace SlotJit.X64

/-- General-purpose registers. -/
inductive Reg where
  | rax
  | rcx
  | rdx
  | rbx
  | rsp
  | rbp
  | rsi
  | rdi
  | r8
  | r9
  | r10
  | r11
  | r12
  | r13
  | r14
  | r15
deriving DecidableEq, Repr, Inhabited

namespace Reg

/-- The number of a register in encodings. -/
def number : Reg → Nat
  | rax => 0
  | rcx => 1
  | rdx => 2
  | rbx => 3
  | rsp => 4
  | rbp => 5
  | rsi => 6
  | rdi => 7
  | r8 => 8
  | r9 => 9
  | r10 => 10
  | r11 => 11
  | r12 => 12
  | r13 => 13
  | r14 => 14
  | r15 => 15

/-- The register of a number. -/
def ofNumber : Nat → Reg
  | 0 => rax
  | 1 => rcx
  | 2 => rdx
  | 3 => rbx
  | 4 => rsp
  | 5 => rbp
  | 6 => rsi
  | 7 => rdi
  | 8 => r8
  | 9 => r9
  | 10 => r10
  | 11 => r11
  | 12 => r12
  | 13 => r13
  | 14 => r14
  | _ => r15

/-- The name of a register. -/
def name : Reg → String
  | rax => "rax"
  | rcx => "rcx"
  | rdx => "rdx"
  | rbx => "rbx"
  | rsp => "rsp"
  | rbp => "rbp"
  | rsi => "rsi"
  | rdi => "rdi"
  | r8 => "r8"
  | r9 => "r9"
  | r10 => "r10"
  | r11 => "r11"
  | r12 => "r12"
  | r13 => "r13"
  | r14 => "r14"
  | r15 => "r15"

/-- Every register in order of numbers. -/
def all : List Reg := (List.range 16).map ofNumber

/-- The register of a name. -/
def ofName? (name : String) : Option Reg := all.find? (·.name == name)

@[simp] theorem ofNumber_number (r : Reg) : ofNumber r.number = r := by cases r <;> rfl

theorem number_lt (r : Reg) : r.number < 16 := by cases r <;> decide

end Reg

/-- Vector registers, of which the low quadword is used. -/
abbrev Xmm := Fin 16

/-- The first vector register. -/
def xmm0 : Xmm := ⟨0, by decide⟩

/-- The second vector register. -/
def xmm1 : Xmm := ⟨1, by decide⟩

/-- Operand size of a general-purpose instruction. A result of 32 bits clears the upper half of its
register. -/
inductive Size where
  | dword
  | qword
deriving DecidableEq, Repr, Inhabited

/-- Precision of a scalar floating point instruction. -/
inductive Precision where
  | single
  | double
deriving DecidableEq, Repr, Inhabited

/-- Conditions of conditional jumps. -/
inductive Cond where
  | o
  | no
  | b
  | ae
  | e
  | ne
  | be
  | a
  | s
  | ns
  | p
  | np
  | l
  | ge
  | le
  | g
deriving DecidableEq, Repr, Inhabited

namespace Cond

/-- The number of a condition in encodings. -/
def number : Cond → Nat
  | o => 0
  | no => 1
  | b => 2
  | ae => 3
  | e => 4
  | ne => 5
  | be => 6
  | a => 7
  | s => 8
  | ns => 9
  | p => 10
  | np => 11
  | l => 12
  | ge => 13
  | le => 14
  | g => 15

/-- The condition of a number. -/
def ofNumber : Nat → Cond
  | 0 => o
  | 1 => no
  | 2 => b
  | 3 => ae
  | 4 => e
  | 5 => ne
  | 6 => be
  | 7 => a
  | 8 => s
  | 9 => ns
  | 10 => p
  | 11 => np
  | 12 => l
  | 13 => ge
  | 14 => le
  | _ => g

/-- The name of a condition. -/
def name : Cond → String
  | o => "o"
  | no => "no"
  | b => "b"
  | ae => "ae"
  | e => "e"
  | ne => "ne"
  | be => "be"
  | a => "a"
  | s => "s"
  | ns => "ns"
  | p => "p"
  | np => "np"
  | l => "l"
  | ge => "ge"
  | le => "le"
  | g => "g"

/-- The condition of a name. -/
def ofName? (name : String) : Option Cond :=
  ((List.range 16).map ofNumber).find? (·.name == name)

@[simp] theorem ofNumber_number (c : Cond) : ofNumber c.number = c := by cases c <;> rfl

theorem number_lt (c : Cond) : c.number < 16 := by cases c <;> decide

end Cond

/-- Integer operations with the common two-operand encodings. -/
inductive AluOp where
  | add
  | or
  | and
  | sub
  | xor
  | cmp
deriving DecidableEq, Repr, Inhabited

namespace AluOp

/-- The number of an operation in encodings. -/
def number : AluOp → Nat
  | add => 0
  | or => 1
  | and => 4
  | sub => 5
  | xor => 6
  | cmp => 7

/-- The operation of a number. -/
def ofNumber? : Nat → Option AluOp
  | 0 => some add
  | 1 => some or
  | 4 => some and
  | 5 => some sub
  | 6 => some xor
  | 7 => some cmp
  | _ => none

@[simp] theorem ofNumber?_number (op : AluOp) : ofNumber? op.number = some op := by cases op <;> rfl

theorem number_lt (op : AluOp) : op.number < 8 := by cases op <;> decide

end AluOp

/-- Shifts by the low bits of `cl`. -/
inductive ShiftOp where
  | shl
  | shr
  | sar
deriving DecidableEq, Repr, Inhabited

namespace ShiftOp

/-- The number of a shift in encodings. -/
def number : ShiftOp → Nat
  | shl => 4
  | shr => 5
  | sar => 7

/-- The shift of a number. -/
def ofNumber? : Nat → Option ShiftOp
  | 4 => some shl
  | 5 => some shr
  | 7 => some sar
  | _ => none

@[simp] theorem ofNumber?_number (op : ShiftOp) : ofNumber? op.number = some op := by
  cases op <;> rfl

theorem number_lt (op : ShiftOp) : op.number < 8 := by cases op <;> decide

end ShiftOp

/-- Scalar floating point arithmetic. -/
inductive SseOp where
  | add
  | mul
  | sub
  | div
deriving DecidableEq, Repr, Inhabited

namespace SseOp

/-- The opcode byte of an operation. -/
def number : SseOp → Nat
  | add => 0x58
  | mul => 0x59
  | sub => 0x5c
  | div => 0x5e

/-- The operation of an opcode byte. -/
def ofNumber? : Nat → Option SseOp
  | 0x58 => some add
  | 0x59 => some mul
  | 0x5c => some sub
  | 0x5e => some div
  | _ => none

@[simp] theorem ofNumber?_number (op : SseOp) : ofNumber? op.number = some op := by
  cases op <;> rfl

end SseOp

end SlotJit.X64

import SlotJit.Ieee.Format
import SlotJit.Machine.Alu
import SlotJit.Machine.Memory
import SlotJit.X64.Instr

/-!
# State of the processor

Registers, flags and memory, and how instructions read and write them.
-/

namespace SlotJit.Machine

open SlotJit.Ieee SlotJit.X64

/-- The signals that end a run. -/
inductive Signal where
  /-- Invalid opcode. -/
  | ill
  /-- Division fault. -/
  | fpe
  /-- Bad address. -/
  | segv
deriving DecidableEq, Repr

namespace Signal

/-- The name of a signal. -/
def name : Signal → String
  | ill => "SIGILL"
  | fpe => "SIGFPE"
  | segv => "SIGSEGV"

/-- The number of a signal. -/
def number : Signal → Nat
  | ill => 4
  | fpe => 8
  | segv => 11

end Signal

/-- The format of a precision. -/
def formatOf : Precision → Format
  | .single => .single
  | .double => .double

/-- The operand size that holds a number of a precision. -/
def scalarSize : Precision → Size
  | .single => .dword
  | .double => .qword

/-- The processor and its memory. -/
structure State where
  regs : Vector Word 16
  /-- Low quadwords of the vector registers. -/
  xmms : Vector Word 16
  flags : Flags := {}
  /-- Address of the next instruction. -/
  rip : Word
  memory : Memory
  /-- Lines that host functions wrote, the last one first. -/
  lines : List String := []

namespace State

/-- The content of a register. -/
def reg (s : State) (r : Reg) : Word := s.regs.get ⟨r.number, r.number_lt⟩

/-- The part of a register that an operand size covers. -/
def regPart (s : State) (size : Size) (r : Reg) : BitVec (width size) :=
  (s.reg r).low size

/-- Set a register. -/
def setReg (s : State) (r : Reg) (value : Word) : State :=
  { s with regs := s.regs.set r.number value r.number_lt }

/-- Set a register to a result; a result of 32 bits clears the upper half. -/
def setPart (s : State) (size : Size) (r : Reg) (value : BitVec (width size)) : State :=
  s.setReg r (value.setWidth 64)

/-- The low quadword of a vector register. -/
def xmm (s : State) (x : Xmm) : Word := s.xmms.get x

/-- Set the low quadword of a vector register. -/
def setXmm (s : State) (x : Xmm) (value : Word) : State :=
  { s with xmms := s.xmms.set x.val value x.isLt }

/-- The scalar of a precision in a vector register. -/
def scalar (s : State) (precision : Precision) (x : Xmm) : Nat :=
  (Memory.part (scalarSize precision) (s.xmm x)).toNat

/-- Set the scalar of a precision in a vector register, keeping the bits above it. -/
def setScalar (s : State) (precision : Precision) (x : Xmm) (bits : Nat) : State :=
  s.setXmm x (Memory.merged (scalarSize precision) (s.xmm x) (BitVec.ofNat 64 bits))

/-- The address of a memory operand. -/
def address (s : State) (m : Mem) : Word :=
  let start := (s.reg m.base).add (.ofInt32 m.disp)
  match m.index with
  | some i => start.add ((s.reg i.reg).mul (.ofScale i.scale))
  | none => start

/-- Go on at a distance from the next instruction. -/
def jumpBy (s : State) (distance : Int32) : State :=
  { s with rip := s.rip.add (.ofInt32 distance) }

end State

/-- What an instruction leads to. -/
inductive Progress where
  | next (s : State)
  /-- A fault, with the state that the instruction found. -/
  | trap (signal : Signal) (s : State)

namespace State

/-- Read memory and go on with the value. -/
@[inline] def loading (s : State) (size : Size) (address : Word)
    (k : State → Word → Progress) : Progress :=
  match s.memory.read? size address with
  | some value => k s value
  | none => .trap .segv s

/-- Write memory and go on. -/
@[inline] def storing (s : State) (size : Size) (address value : Word)
    (k : State → Progress) : Progress :=
  match s.memory.cell? address with
  | some cell =>
    if Memory.writable cell size then k { s with memory := s.memory.store cell size value }
    else .trap .segv s
  | none => .trap .segv s

end State

end SlotJit.Machine

import SlotJit.Ieee.Arithmetic
import SlotJit.Ieee.Comparison
import SlotJit.Ieee.Conversion
import SlotJit.Machine.CodeMap
import SlotJit.Machine.State

/-!
# Executing instructions

`execute` is the effect of one instruction, with the instruction pointer already past it. `step`
fetches, decodes and executes. A call of a host function is one step: the function gets the argument
registers and the heap, and leaves a result, the heap, and any content in the registers that
functions need not keep.
-/

namespace SlotJit.Machine

open SlotJit.Ieee SlotJit.X64

/-- What a host function leaves behind. -/
structure HostResult where
  /-- The result; nothing when the function follows a reference to no array. -/
  value : Option Word
  heap : Heap
  /-- Lines it wrote, in order. -/
  lines : List String := []
  /-- Content of the registers that functions need not keep. -/
  scratch : Reg → Word := fun _ => 0
  xmmScratch : Xmm → Word := fun _ => 0
  flags : Flags := {}

/-- A host function: from the heap and the argument registers in order. -/
abbrev HostFunction := Heap → List Word → HostResult

/-- The host functions by address. -/
abbrev Hosts := Word → Option HostFunction

/-- Argument registers of host functions. -/
def hostArguments : List Reg := [.rdi, .rsi, .rdx, .rcx, .r8, .r9]

/-- Registers that functions need not keep, the result register apart. -/
def callerSaved : List Reg := [.rcx, .rdx, .rsi, .rdi, .r8, .r9, .r10, .r11]

/-- The registers after a host function, its result apart. -/
def afterHost (result : HostResult) (s : State) : State :=
  let s := { s with
    flags := result.flags
    xmms := Vector.ofFn result.xmmScratch
    lines := result.lines.reverse ++ s.lines }
  callerSaved.foldl (fun s r => s.setReg r (result.scratch r)) s

/-- Call a host function. The state lends it the heap, so that the heap can be changed in place. -/
def callHost (f : HostFunction) (s : State) : Progress :=
  let args := hostArguments.map s.reg
  let heap := s.memory.heap
  let s := { s with memory.heap := heap.lent }
  let result := f heap args
  let s := { s with memory.heap := result.heap }
  match result.value with
  | some value => .next ((afterHost result s).setReg .rax value)
  | none => .trap .segv s

/-- The scalar operation of an instruction. -/
def sseResult (op : SseOp) (f : Format) (a b : Nat) : Nat :=
  match op with
  | .add => f.add a b
  | .mul => f.mul a b
  | .sub => f.sub a b
  | .div => f.div a b

/-- The flags of a floating point comparison. -/
def comparisonFlags : Option Ordering → Flags
  | none => { zero := true, parity := true, carry := true }
  | some .lt => { carry := true }
  | some .eq => { zero := true }
  | some .gt => {}

/-- The integer of a floating point number, or the least integer if it is out of range. -/
def truncated (f : Format) (w : Nat) (bits : Nat) : BitVec w :=
  match f.truncate? bits with
  | some n => if (BitVec.intMin w).toInt ≤ n ∧ n ≤ (BitVec.intMax w).toInt then BitVec.ofInt w n
    else BitVec.intMin w
  | none => BitVec.intMin w

/-- Sign or zero extension of a part of a register to 32 bits. -/
def extended (signed : Bool) (part : Part) (value : Word) : BitVec 32 :=
  match signed, part with
  | true, .byte => (value.setWidth 8).signExtend 32
  | true, .word => (value.setWidth 16).signExtend 32
  | false, .byte => (value.setWidth 8).setWidth 32
  | false, .word => (value.setWidth 16).setWidth 32

namespace State

/-- Apply an operation to a register and a value. -/
def aluReg (s : State) (op : AluOp) (size : Size) (dst : Reg) (b : BitVec (width size)) : State :=
  let (r, flags) := alu op (s.regPart size dst) b
  let s := { s with flags }
  if keepsResult op then s.setPart size dst r else s

/-- Multiply a register by a value. -/
def imulReg (s : State) (size : Size) (dst : Reg) (b : BitVec (width size)) : State :=
  let (r, flags) := multiply (s.regPart size dst) b
  { s with flags }.setPart size dst r

/-- Apply a floating point operation to a vector register and a number. -/
def sseXmm (s : State) (op : SseOp) (precision : Precision) (dst : Xmm) (b : Nat) : State :=
  s.setScalar precision dst (sseResult op (formatOf precision) (s.scalar precision dst) b)

/-- Push a word and go on. -/
@[inline] def push (s : State) (value : Word) (k : State → Progress) : Progress :=
  s.storing .qword ((s.reg .rsp).sub 8) value fun s => k (s.setReg .rsp ((s.reg .rsp).sub 8))

/-- Pop a word and go on with it. -/
@[inline] def pop (s : State) (k : State → Word → Progress) : Progress :=
  s.loading .qword (s.reg .rsp) fun s value => k (s.setReg .rsp ((s.reg .rsp).add 8)) value

/-- Apply an operation to memory and a value. -/
def aluMem (s : State) (op : AluOp) (size : Size) (dst : Mem)
    (b : BitVec (width size)) : Progress :=
  s.loading size (s.address dst) fun s a =>
    let (r, flags) := alu op (a.low size) b
    if keepsResult op then
      s.storing size (s.address dst) (r.setWidth 64) fun s => .next { s with flags }
    else .next { s with flags }

end State

/-- Execute an instruction; the instruction pointer is already at the next one. -/
def execute (hosts : Hosts) (s : State) : Instr → Progress
  | .mov size dst src => .next (s.setPart size dst (s.regPart size src))
  | .load size dst src => s.loading size (s.address src) fun s value => .next (s.setReg dst value)
  | .store size dst src => s.storing size (s.address dst) (s.reg src) .next
  | .storeImm size dst imm => s.storing size (s.address dst) (.ofInt32 imm) .next
  | .movImm size dst imm => .next (s.setPart size dst (constant size imm))
  | .movImm64 dst imm => .next (s.setReg dst imm.toBitVec)
  | .movSignExtend dst src => .next (s.setReg dst ((s.regPart .dword src).signExtend 64))
  | .extend signed part dst src => .next (s.setPart .dword dst (extended signed part (s.reg src)))
  | .lea dst src => .next (s.setReg dst (s.address src))
  | .leaRip dst disp => .next (s.setReg dst (s.rip.add (.ofInt32 disp)))
  | .alu op size dst src => .next (s.aluReg op size dst (s.regPart size src))
  | .aluLoad op size dst src => s.loading size (s.address src) fun s b =>
    .next (s.aluReg op size dst (b.low size))
  | .aluStore op size dst src => s.aluMem op size dst (s.regPart size src)
  | .aluImm op size dst imm => .next (s.aluReg op size dst (constant size imm))
  | .aluStoreImm op size dst imm => s.aluMem op size dst (constant size imm)
  | .imul size dst src => .next (s.imulReg size dst (s.regPart size src))
  | .imulLoad size dst src => s.loading size (s.address src) fun s b =>
    .next (s.imulReg size dst (b.low size))
  | .signExtendAcc size => .next (s.setPart size .rdx (signFill (s.regPart size .rax)))
  | .idiv size src =>
    match divide? (s.regPart size .rdx) (s.regPart size .rax) (s.regPart size src) with
    | some (quotient, remainder) =>
      .next ((s.setPart size .rax quotient).setPart size .rdx remainder)
    | none => .trap .fpe s
  | .neg size dst =>
    let (r, flags) := negate (s.regPart size dst)
    .next ({ s with flags }.setPart size dst r)
  | .shift op size dst =>
    let distance := (s.reg .rcx).toNat % width size
    let (r, flags) := shift op s.flags (s.regPart size dst) distance
    .next ({ s with flags }.setPart size dst r)
  | .test size a b =>
    .next { s with flags := resultFlags (s.regPart size a &&& s.regPart size b) false false }
  | .push src => s.push (s.reg src) .next
  | .pop dst => s.pop fun s value => .next (s.setReg dst value)
  | .jmpReg target => .next { s with rip := s.reg target }
  | .jmpMem target => s.loading .qword (s.address target) fun s rip => .next { s with rip }
  | .callReg target =>
    match hosts (s.reg target) with
    | some f => callHost f s
    | none =>
      let rip := s.reg target
      s.push s.rip fun s => .next { s with rip }
  | .ret => s.pop fun s rip => .next { s with rip }
  | .trap => .trap .ill s
  | .jumpShort cond disp => .next (if cond.all s.flags.holds then s.jumpBy disp.toInt32 else s)
  | .jumpLong cond disp => .next (if cond.all s.flags.holds then s.jumpBy disp else s)
  | .loadScalar precision dst src =>
    s.loading (scalarSize precision) (s.address src) fun s value => .next (s.setXmm dst value)
  | .storeScalar precision dst src =>
    s.storing (scalarSize precision) (s.address dst) (s.xmm src) .next
  | .sse op precision dst src => .next (s.sseXmm op precision dst (s.scalar precision src))
  | .sseLoad op precision dst src =>
    s.loading (scalarSize precision) (s.address src) fun s b =>
      .next (s.sseXmm op precision dst b.toNat)
  | .ofInt precision size dst src =>
    .next (s.setScalar precision dst ((formatOf precision).ofInt (signed (s.regPart size src))))
  | .toInt precision size dst src =>
    .next (s.setPart size dst (truncated (formatOf precision) _ (s.scalar precision src)))
  | .movToXmm size dst src => .next (s.setXmm dst ((s.regPart size src).setWidth 64))
  | .movFromXmm size dst src => .next (s.setPart size dst ((s.xmm src).low size))
  | .ucomis precision a b =>
    let order := (formatOf precision).compare? (s.scalar precision a) (s.scalar precision b)
    .next { s with flags := comparisonFlags order }
  | .convert .double dst src =>
    .next (s.setScalar .double dst (Format.convert .single .double (s.scalar .single src)))
  | .convert .single dst src =>
    .next (s.setScalar .single dst (Format.convert .double .single (s.scalar .double src)))

/-- Fetch, decode and execute one instruction. -/
def step (hosts : Hosts) (code : CodeMap) (s : State) : Progress :=
  match code.fetch s.rip with
  | none => .trap .segv s
  | some none => .trap .ill s
  | some (some (instr, size)) =>
    execute hosts { s with rip := s.rip.add size } instr

end SlotJit.Machine

import SlotJit.Bytes
import SlotJit.X64.Instr

/-!
# Decoding machine instructions

Reads one instruction from the front of a list of bytes, by the rules of the architecture: a legacy
byte, a REX byte, the opcode, ModR/M and SIB bytes, displacement and immediate. Reading gives the
instruction and the bytes after it, or nothing if the bytes are not one of the instructions in use.
-/

namespace SlotJit.X64

/-- The fields of a REX byte. -/
structure Rex where
  /-- Whether there is such a byte. -/
  present : Bool := false
  wide : Bool := false
  /-- High bits of the register field, the index and the base, as 0 or 8. -/
  reg : Nat := 0
  index : Nat := 0
  base : Nat := 0

namespace Rex

/-- Read a REX byte, if there is one. -/
def read : List UInt8 → Rex × List UInt8
  | b :: rest =>
    let n := b.toNat
    if n / 16 = 4 then
      ({ present := true, wide := n / 8 % 2 = 1, reg := n / 4 % 2 * 8, index := n / 2 % 2 * 8,
         base := n % 2 * 8 }, rest)
    else ({}, b :: rest)
  | [] => ({}, [])

/-- Operand size of the instruction. -/
def size (r : Rex) : Size := if r.wide then .qword else .dword

/-- Whether a number stands for the low byte of a register. Without a REX byte the numbers 4 to 7
stand for the second bytes of the first four registers. -/
def hasLowByte (r : Rex) (number : Nat) : Bool := r.present || number < 4

end Rex

/-- Read bytes as a number, the lowest first. -/
def readNumber (count : Nat) (bytes : List UInt8) : Option (Nat × List UInt8) :=
  if (bytes.take count).length = count then
    some (ofLittleEndian (bytes.take count), bytes.drop count)
  else none

/-- Read a signed number of four bytes. -/
def readInt32 (bytes : List UInt8) : Option (Int32 × List UInt8) := do
  let (n, rest) ← readNumber 4 bytes
  return ((UInt32.ofNat n).toInt32, rest)

/-- Read a signed number of one byte. -/
def readInt8 : List UInt8 → Option (Int8 × List UInt8)
  | b :: rest => some (b.toInt8, rest)
  | [] => none

/-- What the mode and the low field of a ModR/M byte say. -/
inductive Place where
  | reg (number : Nat)
  | mem (m : Mem)
  | rip (disp : Int32)

/-- Read the displacement of a mode. -/
def readDisp (mode : Nat) (bytes : List UInt8) : Option (Int32 × List UInt8) :=
  match mode with
  | 0 => some (0, bytes)
  | 1 => do
    let (disp, rest) ← readInt8 bytes
    return (disp.toInt32, rest)
  | _ => readInt32 bytes

/-- Read the SIB byte and the displacement of a mode. -/
def readSib (rex : Rex) (mode : Nat) : List UInt8 → Option (Mem × List UInt8)
  | [] => none
  | sib :: rest =>
    let n := sib.toNat
    let base := n % 8
    if mode = 0 ∧ base = 5 then none
    else do
      let (disp, rest) ← readDisp mode rest
      let index := Index.of? (.ofNumber (rex.index + n / 8 % 8)) (.ofNumber (n / 64))
      return ({ base := .ofNumber (rex.base + base), index, disp }, rest)

/-- Read a ModR/M byte and what belongs to it: the number in the register field and the place. -/
def readModrm (rex : Rex) : List UInt8 → Option (Nat × Place × List UInt8)
  | [] => none
  | b :: rest =>
    let n := b.toNat
    let mode := n / 64
    let reg := rex.reg + n / 8 % 8
    let rm := n % 8
    if mode = 3 then some (reg, .reg (rex.base + rm), rest)
    else if rm = 4 then do
      let (m, rest) ← readSib rex mode rest
      return (reg, .mem m, rest)
    else if mode = 0 ∧ rm = 5 then do
      let (disp, rest) ← readInt32 rest
      return (reg, .rip disp, rest)
    else do
      let (disp, rest) ← readDisp mode rest
      return (reg, .mem { base := .ofNumber (rex.base + rm), disp }, rest)

/-- The vector register of a number. -/
def xmm (n : Nat) : Xmm := Fin.ofNat 16 n

/-- Read an instruction whose opcode has one byte. -/
def decodeShort (rex : Rex) (opcode : UInt8) (bytes : List UInt8) : Option (Instr × List UInt8) :=
  let n := opcode.toNat
  let size := rex.size
  if n < 0x40 ∧ (n % 8 = 1 ∨ n % 8 = 3) then do
    let op ← AluOp.ofNumber? (n / 8)
    let (reg, place, rest) ← readModrm rex bytes
    match place with
    | .reg rm =>
      if n % 8 = 1 then return (.alu op size (.ofNumber rm) (.ofNumber reg), rest)
      else return (.alu op size (.ofNumber reg) (.ofNumber rm), rest)
    | .mem m =>
      if n % 8 = 1 then return (.aluStore op size m (.ofNumber reg), rest)
      else return (.aluLoad op size (.ofNumber reg) m, rest)
    | .rip _ => none
  else if n / 8 = 0x0a then some (.push (.ofNumber (rex.base + n % 8)), bytes)
  else if n / 8 = 0x0b then some (.pop (.ofNumber (rex.base + n % 8)), bytes)
  else if n / 16 = 0x07 then do
    let (disp, rest) ← readInt8 bytes
    return (.jumpShort (some (.ofNumber (n % 16))) disp, rest)
  else if n / 8 = 0x17 then
    if rex.wide then do
      let (imm, rest) ← readNumber 8 bytes
      return (.movImm64 (.ofNumber (rex.base + n % 8)) (UInt64.ofNat imm).toInt64, rest)
    else do
      let (imm, rest) ← readInt32 bytes
      return (.movImm .dword (.ofNumber (rex.base + n % 8)) imm, rest)
  else
    match n with
    | 0x63 => do
      let (reg, .reg rm, rest) ← readModrm rex bytes | none
      if rex.wide then return (.movSignExtend (.ofNumber reg) (.ofNumber rm), rest) else none
    | 0x81 => do
      let (reg, place, rest) ← readModrm rex bytes
      let op ← AluOp.ofNumber? (reg % 8)
      let (imm, rest) ← readInt32 rest
      match place with
      | .reg rm => return (.aluImm op size (.ofNumber rm) imm, rest)
      | .mem m => return (.aluStoreImm op size m imm, rest)
      | .rip _ => none
    | 0x83 => do
      let (reg, place, rest) ← readModrm rex bytes
      let op ← AluOp.ofNumber? (reg % 8)
      let (imm, rest) ← readInt8 rest
      match place with
      | .reg rm => return (.aluImm op size (.ofNumber rm) imm.toInt32, rest)
      | .mem m => return (.aluStoreImm op size m imm.toInt32, rest)
      | .rip _ => none
    | 0x85 => do
      let (reg, .reg rm, rest) ← readModrm rex bytes | none
      return (.test size (.ofNumber rm) (.ofNumber reg), rest)
    | 0x89 => do
      let (reg, place, rest) ← readModrm rex bytes
      match place with
      | .reg rm => return (.mov size (.ofNumber rm) (.ofNumber reg), rest)
      | .mem m => return (.store size m (.ofNumber reg), rest)
      | .rip _ => none
    | 0x8b => do
      let (reg, place, rest) ← readModrm rex bytes
      match place with
      | .reg rm => return (.mov size (.ofNumber reg) (.ofNumber rm), rest)
      | .mem m => return (.load size (.ofNumber reg) m, rest)
      | .rip _ => none
    | 0x8d => do
      let (reg, place, rest) ← readModrm rex bytes
      match rex.wide, place with
      | true, .mem m => return (.lea (.ofNumber reg) m, rest)
      | true, .rip disp => return (.leaRip (.ofNumber reg) disp, rest)
      | _, _ => none
    | 0x99 => some (.signExtendAcc size, bytes)
    | 0xc3 => some (.ret, bytes)
    | 0xc7 => do
      let (reg, place, rest) ← readModrm rex bytes
      let (imm, rest) ← readInt32 rest
      match reg % 8, place with
      | 0, .reg rm => return (.movImm size (.ofNumber rm) imm, rest)
      | 0, .mem m => return (.storeImm size m imm, rest)
      | _, _ => none
    | 0xd3 => do
      let (reg, .reg rm, rest) ← readModrm rex bytes | none
      let op ← ShiftOp.ofNumber? (reg % 8)
      return (.shift op size (.ofNumber rm), rest)
    | 0xe9 => do
      let (disp, rest) ← readInt32 bytes
      return (.jumpLong none disp, rest)
    | 0xeb => do
      let (disp, rest) ← readInt8 bytes
      return (.jumpShort none disp, rest)
    | 0xf7 => do
      let (reg, .reg rm, rest) ← readModrm rex bytes | none
      match reg % 8 with
      | 3 => return (.neg size (.ofNumber rm), rest)
      | 7 => return (.idiv size (.ofNumber rm), rest)
      | _ => none
    | 0xff => do
      let (reg, place, rest) ← readModrm rex bytes
      match reg % 8, place with
      | 2, .reg rm => return (.callReg (.ofNumber rm), rest)
      | 4, .reg rm => return (.jmpReg (.ofNumber rm), rest)
      | 4, .mem m => return (.jmpMem m, rest)
      | _, _ => none
    | _ => none

/-- Read an instruction whose opcode has two bytes and that has no legacy byte in front. -/
def decodeLong (rex : Rex) (opcode : UInt8) (bytes : List UInt8) : Option (Instr × List UInt8) :=
  let n := opcode.toNat
  if n / 16 = 0x08 then do
    let (disp, rest) ← readInt32 bytes
    return (.jumpLong (some (.ofNumber (n % 16))) disp, rest)
  else
    match n with
    | 0x0b => some (.trap, bytes)
    | 0x2e => do
      let (reg, .reg rm, rest) ← readModrm rex bytes | none
      return (.ucomis .single (xmm reg) (xmm rm), rest)
    | 0xaf => do
      let (reg, place, rest) ← readModrm rex bytes
      match place with
      | .reg rm => return (.imul rex.size (.ofNumber reg) (.ofNumber rm), rest)
      | .mem m => return (.imulLoad rex.size (.ofNumber reg) m, rest)
      | .rip _ => none
    | 0xb6 => extend false .byte
    | 0xb7 => extend false .word
    | 0xbe => extend true .byte
    | 0xbf => extend true .word
    | _ => none
where
  /-- Read the operands of an extension. -/
  extend (signed : Bool) (part : Part) : Option (Instr × List UInt8) := do
    let (reg, .reg rm, rest) ← readModrm rex bytes | none
    if rex.wide ∨ part = .byte ∧ !rex.hasLowByte rm then none
    else return (.extend signed part (.ofNumber reg) (.ofNumber rm), rest)

/-- Read a scalar floating point instruction of a precision. -/
def decodeScalar (precision : Precision) (rex : Rex) (opcode : UInt8) (bytes : List UInt8) :
    Option (Instr × List UInt8) := do
  let (reg, place, rest) ← readModrm rex bytes
  match opcode.toNat, place with
  | 0x10, .mem m => return (.loadScalar precision (xmm reg) m, rest)
  | 0x11, .mem m => return (.storeScalar precision m (xmm reg), rest)
  | 0x2a, .reg rm => return (.ofInt precision rex.size (xmm reg) (.ofNumber rm), rest)
  | 0x2c, .reg rm => return (.toInt precision rex.size (.ofNumber reg) (xmm rm), rest)
  | 0x5a, .reg rm =>
    let target := match precision with | .single => Precision.double | .double => .single
    return (.convert target (xmm reg) (xmm rm), rest)
  | n, .reg rm => do
    let op ← SseOp.ofNumber? n
    return (.sse op precision (xmm reg) (xmm rm), rest)
  | n, .mem m => do
    let op ← SseOp.ofNumber? n
    return (.sseLoad op precision (xmm reg) m, rest)
  | _, .rip _ => none

/-- Read an instruction with the legacy byte `66` in front. -/
def decodePacked (rex : Rex) (opcode : UInt8) (bytes : List UInt8) :
    Option (Instr × List UInt8) := do
  let (reg, .reg rm, rest) ← readModrm rex bytes | none
  match opcode.toNat with
  | 0x2e => return (.ucomis .double (xmm reg) (xmm rm), rest)
  | 0x6e => return (.movToXmm rex.size (xmm reg) (.ofNumber rm), rest)
  | 0x7e => return (.movFromXmm rex.size (.ofNumber rm) (xmm reg), rest)
  | _ => none

/-- Read an instruction that starts with a legacy byte: a REX byte and a two-byte opcode follow. -/
def decodeAfterLegacy (decodeRest : Rex → UInt8 → List UInt8 → Option (Instr × List UInt8))
    (bytes : List UInt8) : Option (Instr × List UInt8) :=
  match Rex.read bytes with
  | (rex, 0x0f :: opcode :: rest) => decodeRest rex opcode rest
  | _ => none

/-- Read one instruction. -/
def decode (bytes : List UInt8) : Option (Instr × List UInt8) :=
  match bytes with
  | 0x66 :: rest => decodeAfterLegacy decodePacked rest
  | 0xf2 :: rest => decodeAfterLegacy (decodeScalar .double) rest
  | 0xf3 :: rest => decodeAfterLegacy (decodeScalar .single) rest
  | _ =>
    match Rex.read bytes with
    | (rex, 0x0f :: opcode :: rest) => decodeLong rex opcode rest
    | (rex, opcode :: rest) => decodeShort rex opcode rest
    | (_, []) => none

end SlotJit.X64

import SlotJit.Bytes
import SlotJit.X64.Instr

/-!
# Encoding machine instructions

An encoding is an optional legacy byte in front, an optional REX byte, an opcode of one or two
bytes, a ModR/M byte with SIB byte and displacement where the instruction has operands, and an
immediate. Displacements and immediates take one byte when they fit, except for jumps, whose form is
part of the instruction.
-/

namespace SlotJit.X64

/-- The four bytes of a signed number. -/
def imm32 (n : Int32) : List UInt8 := littleEndian 4 n.toUInt32.toNat

/-- The byte of a signed number. -/
def imm8 (n : Int8) : List UInt8 := [n.toUInt8]

/-- Whether a signed number fits one byte. -/
def fitsByte (n : Int32) : Bool := -128 ≤ n.toInt && n.toInt ≤ 127

/-- Whether an operand size asks for the wide bit of the REX byte. -/
def Size.isWide : Size → Bool
  | dword => false
  | qword => true

/-- The legacy byte of a precision. -/
def Precision.byte : Precision → UInt8
  | single => 0xf3
  | double => 0xf2

/-- The REX byte, with the high bits of three register numbers. -/
def rexByte (wide : Bool) (reg index base : Nat) : UInt8 :=
  UInt8.ofNat (0x40 + (if wide then 8 else 0) + reg / 8 % 2 * 4 + index / 8 % 2 * 2 + base / 8 % 2)

/-- The REX byte where it says anything. -/
def rex (wide : Bool) (reg index base : Nat) : List UInt8 :=
  if rexByte wide reg index base = 0x40 then [] else [rexByte wide reg index base]

/-- The ModR/M byte. -/
def modrm (mode reg rm : Nat) : UInt8 := UInt8.ofNat (mode * 64 + reg % 8 * 8 + rm % 8)

/-- The mode of a displacement: none, one byte or four bytes. With `rbp` and `r13` as base, no
displacement is not among the modes. -/
def dispMode (base : Reg) (disp : Int32) : Nat :=
  if disp = 0 ∧ base.number % 8 ≠ 5 then 0 else if fitsByte disp then 1 else 2

/-- The bytes of a displacement. -/
def dispBytes (mode : Nat) (disp : Int32) : List UInt8 :=
  match mode with
  | 0 => []
  | 1 => imm8 disp.toInt8
  | _ => imm32 disp

/-- The bytes of a memory operand, with the number that stands in the register field. -/
def memBytes (reg : Nat) (m : Mem) : List UInt8 :=
  let mode := dispMode m.base m.disp
  (match m.index with
    | some index =>
      [modrm mode reg 4,
        UInt8.ofNat (index.scale.number * 64 + index.reg.number % 8 * 8 + m.base.number % 8)]
    | none =>
      if m.base.number % 8 = 4 then [modrm mode reg 4, 0x24] else [modrm mode reg m.base.number])
    ++ dispBytes mode m.disp

/-- The number of the index register; zero if there is none. -/
def Mem.indexNumber (m : Mem) : Nat :=
  match m.index with
  | some index => index.reg.number
  | none => 0

/-- REX byte, opcode and two registers. -/
def withReg (wide : Bool) (opcode : List UInt8) (reg rm : Nat) : List UInt8 :=
  rex wide reg 0 rm ++ opcode ++ [modrm 3 reg rm]

/-- REX byte, opcode, register and memory operand. -/
def withMem (wide : Bool) (opcode : List UInt8) (reg : Nat) (m : Mem) : List UInt8 :=
  rex wide reg m.indexNumber m.base.number ++ opcode ++ memBytes reg m

/-- The byte registers of these numbers are `spl` to `dil` only after a REX byte. -/
def needsRexAsByte (r : Reg) : Bool := 4 ≤ r.number && r.number < 8

/-- The opcode byte that extends a part of a register. -/
def extendOpcode (signed : Bool) (part : Part) : UInt8 :=
  match signed, part with
  | true, .byte => 0xbe
  | true, .word => 0xbf
  | false, .byte => 0xb6
  | false, .word => 0xb7

/-- The bytes of an instruction. -/
def encode : Instr → List UInt8
  | .mov size dst src => withReg size.isWide [0x89] src.number dst.number
  | .load size dst src => withMem size.isWide [0x8b] dst.number src
  | .store size dst src => withMem size.isWide [0x89] src.number dst
  | .storeImm size dst imm => withMem size.isWide [0xc7] 0 dst ++ imm32 imm
  | .movImm .dword dst imm =>
    rex false 0 0 dst.number ++ [UInt8.ofNat (0xb8 + dst.number % 8)] ++ imm32 imm
  | .movImm .qword dst imm => withReg true [0xc7] 0 dst.number ++ imm32 imm
  | .movImm64 dst imm =>
    rex true 0 0 dst.number ++ [UInt8.ofNat (0xb8 + dst.number % 8)]
      ++ littleEndian 8 imm.toUInt64.toNat
  | .movSignExtend dst src => withReg true [0x63] dst.number src.number
  | .extend signed part dst src =>
    (if part = .byte ∧ needsRexAsByte src then [rexByte false dst.number 0 src.number]
      else rex false dst.number 0 src.number)
      ++ [0x0f, extendOpcode signed part, modrm 3 dst.number src.number]
  | .lea dst src => withMem true [0x8d] dst.number src
  | .leaRip dst disp => rex true dst.number 0 0 ++ [0x8d, modrm 0 dst.number 5] ++ imm32 disp
  | .alu op size dst src =>
    withReg size.isWide [UInt8.ofNat (op.number * 8 + 1)] src.number dst.number
  | .aluLoad op size dst src =>
    withMem size.isWide [UInt8.ofNat (op.number * 8 + 3)] dst.number src
  | .aluStore op size dst src =>
    withMem size.isWide [UInt8.ofNat (op.number * 8 + 1)] src.number dst
  | .aluImm op size dst imm =>
    if fitsByte imm then withReg size.isWide [0x83] op.number dst.number ++ imm8 imm.toInt8
    else withReg size.isWide [0x81] op.number dst.number ++ imm32 imm
  | .aluStoreImm op size dst imm =>
    if fitsByte imm then withMem size.isWide [0x83] op.number dst ++ imm8 imm.toInt8
    else withMem size.isWide [0x81] op.number dst ++ imm32 imm
  | .imul size dst src => withReg size.isWide [0x0f, 0xaf] dst.number src.number
  | .imulLoad size dst src => withMem size.isWide [0x0f, 0xaf] dst.number src
  | .signExtendAcc size => rex size.isWide 0 0 0 ++ [0x99]
  | .idiv size src => withReg size.isWide [0xf7] 7 src.number
  | .neg size dst => withReg size.isWide [0xf7] 3 dst.number
  | .shift op size dst => withReg size.isWide [0xd3] op.number dst.number
  | .test size a b => withReg size.isWide [0x85] b.number a.number
  | .push src => rex false 0 0 src.number ++ [UInt8.ofNat (0x50 + src.number % 8)]
  | .pop dst => rex false 0 0 dst.number ++ [UInt8.ofNat (0x58 + dst.number % 8)]
  | .jmpReg target => withReg false [0xff] 4 target.number
  | .jmpMem target => withMem false [0xff] 4 target
  | .callReg target => withReg false [0xff] 2 target.number
  | .ret => [0xc3]
  | .trap => [0x0f, 0x0b]
  | .jumpShort none disp => 0xeb :: imm8 disp
  | .jumpShort (some cond) disp => UInt8.ofNat (0x70 + cond.number) :: imm8 disp
  | .jumpLong none disp => 0xe9 :: imm32 disp
  | .jumpLong (some cond) disp => 0x0f :: UInt8.ofNat (0x80 + cond.number) :: imm32 disp
  | .loadScalar precision dst src => precision.byte :: withMem false [0x0f, 0x10] dst.val src
  | .storeScalar precision dst src => precision.byte :: withMem false [0x0f, 0x11] src.val dst
  | .sse op precision dst src =>
    precision.byte :: withReg false [0x0f, UInt8.ofNat op.number] dst.val src.val
  | .sseLoad op precision dst src =>
    precision.byte :: withMem false [0x0f, UInt8.ofNat op.number] dst.val src
  | .ofInt precision size dst src =>
    precision.byte :: withReg size.isWide [0x0f, 0x2a] dst.val src.number
  | .toInt precision size dst src =>
    precision.byte :: withReg size.isWide [0x0f, 0x2c] dst.number src.val
  | .movToXmm size dst src => 0x66 :: withReg size.isWide [0x0f, 0x6e] dst.val src.number
  | .movFromXmm size dst src => 0x66 :: withReg size.isWide [0x0f, 0x7e] src.val dst.number
  | .ucomis .single a b => withReg false [0x0f, 0x2e] a.val b.val
  | .ucomis .double a b => 0x66 :: withReg false [0x0f, 0x2e] a.val b.val
  | .convert .double dst src => Precision.single.byte :: withReg false [0x0f, 0x5a] dst.val src.val
  | .convert .single dst src => Precision.double.byte :: withReg false [0x0f, 0x5a] dst.val src.val

end SlotJit.X64

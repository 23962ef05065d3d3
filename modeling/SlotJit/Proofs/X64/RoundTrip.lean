import Mathlib
import SlotJit.X64.Assembly
import SlotJit.X64.Decoding

/-!
# Decoding what was encoded

Decoding the bytes of an instruction gives the instruction back and leaves the bytes after it
(`decode_encode`).

The argument follows the parts of an encoding. `Rex.read_rex` reads the byte in front, whether it is
there or not; `readModrm_reg` and `readModrm_memBytes` put the high bits it holds back to the
register numbers; `decode_short`, `decode_long`, `decode_scalar` and `decode_packed` find the table
an opcode is in. What is left for an instruction is to look its opcode up.

The lengths of the parts add up to at most the fifteen bytes that the architecture allows
(`length_encode_le`).
-/

namespace SlotJit

/-! ### Numbers as bytes -/

/-- A number takes as many bytes as it is given. -/
@[simp] theorem length_littleEndian (count n : Nat) : (littleEndian count n).length = count := by
  induction count generalizing n with
  | zero => rfl
  | succ count ih => rw [littleEndian, List.length_cons, ih]

/-- The bytes of a number give the number back, up to those that were left out. -/
theorem ofLittleEndian_littleEndian (count n : Nat) :
    ofLittleEndian (littleEndian count n) = n % 256 ^ count := by
  induction count generalizing n with
  | zero => simp [littleEndian, ofLittleEndian, Nat.mod_one]
  | succ count ih =>
      have hpow : 256 ^ (count + 1) = 256 * 256 ^ count := Nat.pow_succ'
      rw [littleEndian, ofLittleEndian, ih, UInt8.toNat_ofNat', hpow, Nat.mod_mul]

namespace X64

/-- Reading a number gives back what was written. -/
theorem readNumber_littleEndian (count n : Nat) (rest : List UInt8) :
    readNumber count (littleEndian count n ++ rest) = some (n % 256 ^ count, rest) := by
  have hlength := length_littleEndian count n
  rw [readNumber, List.take_left' hlength, List.drop_left' hlength, if_pos hlength,
    ofLittleEndian_littleEndian]

/-- A constant of four bytes is read back. -/
@[simp] theorem readInt32_imm32 (n : Int32) (rest : List UInt8) :
    readInt32 (imm32 n ++ rest) = some (n, rest) := by
  have hlt : n.toUInt32.toNat < 256 ^ 4 := n.toUInt32.toNat_lt
  rw [readInt32, imm32, readNumber_littleEndian, Nat.mod_eq_of_lt hlt]
  simp only [Option.bind_eq_bind, Option.bind_some, UInt32.ofNat_toNat, Int32.toInt32_toUInt32]
  rfl

/-- A constant of one byte is read back. -/
@[simp] theorem readInt8_imm8 (n : Int8) (rest : List UInt8) :
    readInt8 (imm8 n ++ rest) = some (n, rest) := by
  simp [readInt8, imm8]

/-- A number that fits a byte is its low byte, extended with the sign. -/
theorem toInt32_toInt8_of_fitsByte {n : Int32} (h : fitsByte n = true) : n.toInt8.toInt32 = n := by
  simp only [fitsByte, Bool.and_eq_true, decide_eq_true_eq] at h
  rw [← Int32.toInt_inj, Int8.toInt_toInt32, Int32.toInt_toInt8]
  exact Int.bmod_eq_of_le (by omega) (by omega)

/-! ### The byte in front -/

/-- What the REX byte says of three register numbers. -/
def Rex.fields (present wide : Bool) (reg index base : Nat) : Rex :=
  { present, wide, reg := reg / 8 % 2 * 8, index := index / 8 % 2 * 8, base := base / 8 % 2 * 8 }

/-- The operand size is read back from the prefix. -/
@[simp] theorem Rex.size_fields (present : Bool) (size : Size) (reg index base : Nat) :
    (Rex.fields present size.isWide reg index base).size = size := by
  cases size <;> rfl

/-- The width bit is read back from the prefix. -/
@[simp] theorem Rex.wide_fields (present wide : Bool) (reg index base : Nat) :
    (Rex.fields present wide reg index base).wide = wide := rfl

/-- The number of a register is the bit in the REX byte and the three bits elsewhere. -/
theorem number_of_fields {n : Nat} (h : n < 16) : n / 8 % 2 * 8 + n % 8 = n := by omega

/-- The prefix byte is a sum of its bits. -/
theorem toNat_rexByte (wide : Bool) (reg index base : Nat) :
    (rexByte wide reg index base).toNat =
      0x40 + (if wide then 8 else 0) + reg / 8 % 2 * 4 + index / 8 % 2 * 2 + base / 8 % 2 := by
  rw [rexByte, UInt8.toNat_ofNat', Nat.mod_eq_of_lt]
  split <;> omega

/-- Reading a REX byte gives its fields. -/
theorem Rex.read_rexByte (wide : Bool) (reg index base : Nat) (rest : List UInt8) :
    Rex.read (rexByte wide reg index base :: rest) =
      (Rex.fields true wide reg index base, rest) := by
  have hwide : (if wide then 8 else 0) / 8 % 2 = if wide then 1 else 0 := by cases wide <;> rfl
  have hle : (if wide then 8 else 0) ≤ 8 := by cases wide <;> decide
  have hmod : (if wide then 8 else 0) % 8 = 0 := by cases wide <;> rfl
  rw [Rex.read, toNat_rexByte]
  generalize hw : (if wide then 8 else 0) = w at *
  rw [if_pos (by omega)]
  simp only [Rex.fields, Prod.mk.injEq, Rex.mk.injEq, true_and, and_true]
  refine ⟨?_, by omega, by omega, by omega⟩
  cases wide <;> simp at hw <;> subst hw <;> simp <;> omega

/-- Reading in front of an opcode gives the fields, also where the byte is left out. -/
theorem Rex.read_rex (wide : Bool) (reg index base : Nat) {opcode : UInt8}
    (hop : opcode.toNat / 16 ≠ 4) (rest : List UInt8) :
    Rex.read (rex wide reg index base ++ opcode :: rest) =
      (Rex.fields (rexByte wide reg index base != 0x40) wide reg index base, opcode :: rest) := by
  rw [rex]
  split
  · rename_i hempty
    have hzero := congrArg UInt8.toNat hempty
    rw [toNat_rexByte, UInt8.toNat_ofNat] at hzero
    rw [List.nil_append, Rex.read, if_neg hop, hempty]
    cases wide with
    | true => simp at hzero; omega
    | false =>
        simp only [Bool.false_eq_true, if_false] at hzero
        simp only [Rex.fields, Prod.mk.injEq, Rex.mk.injEq, bne_self_eq_false, true_and, and_true]
        omega
  · rename_i hbyte
    rw [bne_iff_ne.mpr hbyte]
    exact Rex.read_rexByte ..

/-! ### Operands -/

/-- The three fields of a ModR/M byte. -/
theorem modrm_fields {mode : Nat} (h : mode < 4) (reg rm : Nat) :
    (modrm mode reg rm).toNat / 64 = mode ∧ (modrm mode reg rm).toNat / 8 % 8 = reg % 8 ∧
      (modrm mode reg rm).toNat % 8 = rm % 8 := by
  rw [modrm, UInt8.toNat_ofNat', Nat.mod_eq_of_lt (by omega)]
  omega

/-- Two registers are read back. -/
theorem readModrm_reg {reg rm : Nat} (hreg : reg < 16) (hrm : rm < 16) (present wide : Bool)
    (index : Nat) (rest : List UInt8) :
    readModrm (.fields present wide reg index rm) (modrm 3 reg rm :: rest) =
      some (reg, .reg rm, rest) := by
  obtain ⟨hmode, hhigh, hlow⟩ := modrm_fields (by decide : 3 < 4) reg rm
  rw [readModrm]
  simp only [hmode, hhigh, hlow, if_true, Rex.fields, number_of_fields hreg, number_of_fields hrm]

/-- A distance from the end of the instruction is read back. -/
theorem readModrm_rip {reg : Nat} (hreg : reg < 16) (present wide : Bool) (index base : Nat)
    (disp : Int32) (rest : List UInt8) :
    readModrm (.fields present wide reg index base) (modrm 0 reg 5 :: (imm32 disp ++ rest)) =
      some (reg, .rip disp, rest) := by
  obtain ⟨hmode, hhigh, hlow⟩ := modrm_fields (by decide : 0 < 4) reg 5
  rw [readModrm]
  simp only [hmode, hhigh, hlow, Nat.reduceEqDiff, Nat.reduceMod, if_false, and_self, if_true,
    readInt32_imm32, Option.bind_eq_bind, Option.bind_some, Rex.fields, number_of_fields hreg]
  rfl

/-- The mode of a displacement is not the one of registers. -/
theorem dispMode_lt (base : Reg) (disp : Int32) : dispMode base disp < 3 := by
  unfold dispMode
  split
  · decide
  · split <;> decide

/-- A displacement is read back. -/
theorem readDisp_dispBytes (base : Reg) (disp : Int32) (rest : List UInt8) :
    readDisp (dispMode base disp) (dispBytes (dispMode base disp) disp ++ rest) =
      some (disp, rest) := by
  unfold dispMode
  split
  · rename_i hzero
    simp [readDisp, dispBytes, hzero.1]
  · split
    · rename_i hfits
      simp [readDisp, dispBytes, toInt32_toInt8_of_fitsByte hfits]
    · simp [readDisp, dispBytes]

/-- The mode without a displacement is not used with the bases that it does not have. -/
theorem dispMode_ne_zero {base : Reg} (h : base.number % 8 = 5) (disp : Int32) :
    dispMode base disp ≠ 0 := by
  unfold dispMode
  rw [if_neg (fun hzero => hzero.2 h)]
  split <;> decide

/-- An index register can be one. -/
theorem Index.of?_reg (index : Index) : Index.of? index.reg index.scale = some index := by
  rw [Index.of?, dif_pos index.ne_rsp]

/-- An index with its base is read back from the SIB byte. -/
theorem readSib_index (m : Mem) (index : Index) (hindex : m.index = some index)
    (present wide : Bool) (reg : Nat) (rest : List UInt8) :
    readSib (.fields present wide reg index.reg.number m.base.number) (dispMode m.base m.disp)
      (UInt8.ofNat (index.scale.number * 64 + index.reg.number % 8 * 8 + m.base.number % 8) ::
        (dispBytes (dispMode m.base m.disp) m.disp ++ rest)) = some (m, rest) := by
  have hscale := index.scale.number_lt
  have hreg := number_of_fields index.reg.number_lt
  have hbase := number_of_fields m.base.number_lt
  have hbyte : (UInt8.ofNat
      (index.scale.number * 64 + index.reg.number % 8 * 8 + m.base.number % 8)).toNat =
      index.scale.number * 64 + index.reg.number % 8 * 8 + m.base.number % 8 := by
    rw [UInt8.toNat_ofNat', Nat.mod_eq_of_lt (by omega)]
  have hlow : (index.scale.number * 64 + index.reg.number % 8 * 8 + m.base.number % 8) % 8 =
      m.base.number % 8 := by omega
  have hmiddle : (index.scale.number * 64 + index.reg.number % 8 * 8 + m.base.number % 8) / 8 % 8 =
      index.reg.number % 8 := by omega
  have hhigh : (index.scale.number * 64 + index.reg.number % 8 * 8 + m.base.number % 8) / 64 =
      index.scale.number := by omega
  rw [readSib, hbyte]
  simp only [hlow, hmiddle, hhigh]
  rw [if_neg (fun h => dispMode_ne_zero h.2 m.disp h.1), readDisp_dispBytes]
  simp [Rex.fields, hreg, hbase, Index.of?_reg, ← hindex]

/-- A base that takes a SIB byte of its own is read back from it. -/
theorem readSib_base (m : Mem) (hindex : m.index = none) (hbase : m.base.number % 8 = 4)
    (present wide : Bool) (reg : Nat) (rest : List UInt8) :
    readSib (.fields present wide reg 0 m.base.number) (dispMode m.base m.disp)
      (0x24 :: (dispBytes (dispMode m.base m.disp) m.disp ++ rest)) = some (m, rest) := by
  have hnumber := number_of_fields m.base.number_lt
  rw [hbase] at hnumber
  have hbyte : (0x24 : UInt8).toNat = 0x24 := rfl
  rw [readSib, hbyte]
  simp only [Nat.reduceMod, Nat.reduceDiv, Nat.reduceEqDiff, and_false, if_false,
    readDisp_dispBytes]
  have hnone : Index.of? (Reg.ofNumber 4) (Scale.ofNumber 0) = none := by decide
  simp [Rex.fields, hnumber, hnone, ← hindex]

/-- A register and a memory operand are read back. -/
theorem readModrm_memBytes {reg : Nat} (hreg : reg < 16) (m : Mem) (present wide : Bool)
    (rest : List UInt8) :
    readModrm (.fields present wide reg m.indexNumber m.base.number) (memBytes reg m ++ rest) =
      some (reg, .mem m, rest) := by
  have hlt := dispMode_lt m.base m.disp
  have hmode : dispMode m.base m.disp < 4 := by omega
  have hne : ¬ dispMode m.base m.disp = 3 := by omega
  have hfields := number_of_fields hreg
  unfold memBytes Mem.indexNumber
  cases hindex : m.index with
  | some index =>
      obtain ⟨hm, hhigh, hlow⟩ := modrm_fields hmode reg 4
      simp only [List.cons_append, List.nil_append, readModrm, hm, hhigh, hlow, hne, if_false,
        if_true, readSib_index m index hindex]
      simp [Rex.fields, hfields]
  | none =>
      by_cases hbase : m.base.number % 8 = 4
      · obtain ⟨hm, hhigh, hlow⟩ := modrm_fields hmode reg 4
        simp only [hbase, if_true, List.cons_append, List.nil_append, readModrm, hm, hhigh, hlow,
          hne, if_false, readSib_base m hindex hbase]
        simp [Rex.fields, hfields]
      · obtain ⟨hm, hhigh, hlow⟩ := modrm_fields hmode reg m.base.number
        have hrip : ¬ (dispMode m.base m.disp = 0 ∧ m.base.number % 8 = 5) :=
          fun h => dispMode_ne_zero h.2 m.disp h.1
        simp only [hbase, if_false, List.cons_append, List.nil_append, readModrm, hm, hhigh, hlow,
          hne, hrip, readDisp_dispBytes]
        simp [Rex.fields, hfields, number_of_fields m.base.number_lt, ← hindex]

/-! ### Opcodes -/

/-- Whether a byte in front of an instruction is its opcode, of one byte, and not something else
that stands in front. -/
def isShortOpcode (b : UInt8) : Bool :=
  b.toNat / 16 != 4 && b != 0x0f && b != 0x66 && b != 0xf2 && b != 0xf3

/-- A REX byte is none of the legacy bytes. -/
theorem rexByte_ne (wide : Bool) (reg index base : Nat) :
    rexByte wide reg index base ≠ 0x66 ∧ rexByte wide reg index base ≠ 0xf2 ∧
      rexByte wide reg index base ≠ 0xf3 := by
  have hbyte := toNat_rexByte wide reg index base
  have hle : (if wide then 8 else 0) ≤ 8 := by cases wide <;> decide
  refine ⟨?_, ?_, ?_⟩ <;>
  · intro h
    simp only [h, UInt8.reduceToNat] at hbyte
    omega

/-- Without a legacy byte in front, decoding starts with the REX byte. -/
theorem decode_cons {b : UInt8} (hlegacy : b ≠ 0x66 ∧ b ≠ 0xf2 ∧ b ≠ 0xf3) (rest : List UInt8) :
    decode (b :: rest) =
      match Rex.read (b :: rest) with
      | (rex, 0x0f :: opcode :: rest) => decodeLong rex opcode rest
      | (rex, opcode :: rest) => decodeShort rex opcode rest
      | (_, []) => none := by
  unfold decode
  split
  · rename_i heq
    exact absurd (List.cons.inj heq).1 hlegacy.1
  · rename_i heq
    exact absurd (List.cons.inj heq).1 hlegacy.2.1
  · rename_i heq
    exact absurd (List.cons.inj heq).1 hlegacy.2.2
  · rfl

/-- Decoding starts with the prefix if no other one stands there. -/
theorem decode_of_rex (wide : Bool) (reg index base : Nat) {opcode : UInt8}
    (hlegacy : opcode ≠ 0x66 ∧ opcode ≠ 0xf2 ∧ opcode ≠ 0xf3) (rest : List UInt8) :
    decode (rex wide reg index base ++ opcode :: rest) =
      match Rex.read (rex wide reg index base ++ opcode :: rest) with
      | (rex, 0x0f :: opcode :: rest) => decodeLong rex opcode rest
      | (rex, opcode :: rest) => decodeShort rex opcode rest
      | (_, []) => none := by
  rw [rex]
  split
  · exact decode_cons hlegacy rest
  · exact decode_cons (rexByte_ne wide reg index base) (opcode :: rest)

/-- An opcode of one byte is looked up in its table. -/
theorem decode_short (wide : Bool) (reg index base : Nat) {opcode : UInt8}
    (hop : isShortOpcode opcode = true) (rest : List UInt8) :
    decode (rex wide reg index base ++ opcode :: rest) =
      decodeShort (.fields (rexByte wide reg index base != 0x40) wide reg index base) opcode
        rest := by
  simp only [isShortOpcode, Bool.and_eq_true, bne_iff_ne] at hop
  obtain ⟨⟨⟨⟨hrex, hescape⟩, h66⟩, hf2⟩, hf3⟩ := hop
  rw [decode_of_rex wide reg index base ⟨h66, hf2, hf3⟩, Rex.read_rex wide reg index base hrex]
  split
  · rename_i h
    exact absurd (List.cons.inj (Prod.mk.inj h).2).1 hescape
  · rename_i h
    obtain ⟨rfl, hcons⟩ := Prod.mk.inj h
    obtain ⟨rfl, rfl⟩ := List.cons.inj hcons
    rfl
  · rename_i h
    simp at h

/-- An opcode of two bytes is looked up in its table. -/
theorem decode_long (wide : Bool) (reg index base : Nat) (opcode : UInt8) (rest : List UInt8) :
    decode (rex wide reg index base ++ 0x0f :: opcode :: rest) =
      decodeLong (.fields (rexByte wide reg index base != 0x40) wide reg index base) opcode
        rest := by
  rw [decode_of_rex wide reg index base (by decide),
    Rex.read_rex wide reg index base (by decide)]
  rfl

/-- A REX byte that only says that it is there is read all the same. -/
theorem decode_rexByte_long (wide : Bool) (reg index base : Nat) (opcode : UInt8)
    (rest : List UInt8) :
    decode (rexByte wide reg index base :: 0x0f :: opcode :: rest) =
      decodeLong (.fields true wide reg index base) opcode rest := by
  rw [decode_cons (rexByte_ne wide reg index base), Rex.read_rexByte]
  rfl

/-- The opcode of a scalar instruction is looked up in the table of its precision. -/
theorem decode_scalar (precision : Precision) (wide : Bool) (reg index base : Nat) (opcode : UInt8)
    (rest : List UInt8) :
    decode (precision.byte :: (rex wide reg index base ++ 0x0f :: opcode :: rest)) =
      decodeScalar precision (.fields (rexByte wide reg index base != 0x40) wide reg index base)
        opcode rest := by
  cases precision <;>
    simp only [Precision.byte, decode, decodeAfterLegacy,
      Rex.read_rex wide reg index base (by decide : (0x0f : UInt8).toNat / 16 ≠ 4)]

/-- The opcode of a packed instruction is looked up in its table. -/
theorem decode_packed (wide : Bool) (reg index base : Nat) (opcode : UInt8) (rest : List UInt8) :
    decode (0x66 :: (rex wide reg index base ++ 0x0f :: opcode :: rest)) =
      decodePacked (.fields (rexByte wide reg index base != 0x40) wide reg index base) opcode
        rest := by
  simp only [decode, decodeAfterLegacy,
    Rex.read_rex wide reg index base (by decide : (0x0f : UInt8).toNat / 16 ≠ 4)]

/-! ### Opcodes that hold a number -/

/-- The byte of an opcode with a number in its low bits. -/
theorem toNat_opcode {first number : Nat} (h : first + number < 256) :
    (UInt8.ofNat (first + number)).toNat = first + number := by
  rw [UInt8.toNat_ofNat', Nat.mod_eq_of_lt h]

/-- A register whose number is split between the REX byte and the opcode is read back. -/
theorem ofNumber_opcode (r : Reg) {first : Nat} (hmod : first % 8 = 0) (hle : first ≤ 0xf8)
    (present wide : Bool) (reg index : Nat) :
    Reg.ofNumber ((Rex.fields present wide reg index r.number).base +
      (UInt8.ofNat (first + r.number % 8)).toNat % 8) = r := by
  have hfields := number_of_fields r.number_lt
  have hlow : (first + r.number % 8) % 8 = r.number % 8 := by omega
  rw [toNat_opcode (by omega), Rex.fields, hlow, hfields, Reg.ofNumber_number]

/-- The opcodes that hold a number are opcodes of one byte. -/
theorem isShortOpcode_of_le {opcode : UInt8} (hlow : 0x50 ≤ opcode.toNat)
    (hhigh : opcode.toNat < 0xf0) (h66 : opcode.toNat ≠ 0x66) : isShortOpcode opcode = true := by
  have key : ∀ n : UInt8, opcode.toNat ≠ n.toNat → opcode ≠ n := fun n h heq => h (heq ▸ rfl)
  have h0f := key 0x0f (by simp only [UInt8.reduceToNat]; omega)
  have h66 := key 0x66 h66
  have hf2 := key 0xf2 (by simp only [UInt8.reduceToNat]; omega)
  have hf3 := key 0xf3 (by simp only [UInt8.reduceToNat]; omega)
  have hrex : opcode.toNat / 16 ≠ 4 := by omega
  simp [isShortOpcode, h0f, h66, hf2, hf3, hrex]

/-- The short form of a push. -/
theorem decodeShort_push (rex : Rex) {opcode : UInt8} (h : opcode.toNat / 8 = 0x0a)
    (bytes : List UInt8) :
    decodeShort rex opcode bytes =
      some (.push (.ofNumber (rex.base + opcode.toNat % 8)), bytes) := by
  have halu : ¬ (opcode.toNat < 0x40 ∧ (opcode.toNat % 8 = 1 ∨ opcode.toNat % 8 = 3)) := by omega
  simp only [decodeShort, halu, h, if_false, if_true]

/-- The short form of a pop. -/
theorem decodeShort_pop (rex : Rex) {opcode : UInt8} (h : opcode.toNat / 8 = 0x0b)
    (bytes : List UInt8) :
    decodeShort rex opcode bytes =
      some (.pop (.ofNumber (rex.base + opcode.toNat % 8)), bytes) := by
  have halu : ¬ (opcode.toNat < 0x40 ∧ (opcode.toNat % 8 = 1 ∨ opcode.toNat % 8 = 3)) := by omega
  simp only [decodeShort, halu, h, if_false, if_true, Nat.reduceEqDiff]

/-- The short form of a conditional jump. -/
theorem decodeShort_jump (rex : Rex) {opcode : UInt8} (h : opcode.toNat / 16 = 0x07)
    (disp : Int8) (rest : List UInt8) :
    decodeShort rex opcode (imm8 disp ++ rest) =
      some (.jumpShort (some (.ofNumber (opcode.toNat % 16))) disp, rest) := by
  have halu : ¬ (opcode.toNat < 0x40 ∧ (opcode.toNat % 8 = 1 ∨ opcode.toNat % 8 = 3)) := by omega
  have hpush : ¬ opcode.toNat / 8 = 0x0a := by omega
  have hpop : ¬ opcode.toNat / 8 = 0x0b := by omega
  simp [decodeShort, halu, hpush, hpop, h]

/-- Loading a constant of four bytes. -/
theorem decodeShort_movImm (rex : Rex) {opcode : UInt8} (h : opcode.toNat / 8 = 0x17)
    (hwide : rex.wide = false) (imm : Int32) (rest : List UInt8) :
    decodeShort rex opcode (imm32 imm ++ rest) =
      some (.movImm .dword (.ofNumber (rex.base + opcode.toNat % 8)) imm, rest) := by
  have halu : ¬ (opcode.toNat < 0x40 ∧ (opcode.toNat % 8 = 1 ∨ opcode.toNat % 8 = 3)) := by omega
  have hjump : ¬ opcode.toNat / 16 = 0x07 := by omega
  simp [decodeShort, halu, hjump, h, hwide]

/-- Loading a constant of eight bytes. -/
theorem decodeShort_movImm64 (rex : Rex) {opcode : UInt8} (h : opcode.toNat / 8 = 0x17)
    (hwide : rex.wide = true) (imm : Int64) (rest : List UInt8) :
    decodeShort rex opcode (littleEndian 8 imm.toUInt64.toNat ++ rest) =
      some (.movImm64 (.ofNumber (rex.base + opcode.toNat % 8)) imm, rest) := by
  have halu : ¬ (opcode.toNat < 0x40 ∧ (opcode.toNat % 8 = 1 ∨ opcode.toNat % 8 = 3)) := by omega
  have hjump : ¬ opcode.toNat / 16 = 0x07 := by omega
  have hlt : imm.toUInt64.toNat < 256 ^ 8 := imm.toUInt64.toNat_lt
  have hread : readNumber 8 (littleEndian 8 imm.toUInt64.toNat ++ rest) =
      some (imm.toUInt64.toNat, rest) := by
    rw [readNumber_littleEndian, Nat.mod_eq_of_lt hlt]
  simp only [decodeShort, halu, hjump, h, hwide, if_true, if_false, hread, Nat.reduceEqDiff,
    Option.bind_eq_bind, Option.bind_some, UInt64.ofNat_toNat, Int64.toInt64_toUInt64]
  rfl

/-! ### Instructions -/

/-- An instruction with two registers is looked up by its opcode. -/
theorem decode_withReg (wide : Bool) {opcode : UInt8} (hop : isShortOpcode opcode = true)
    (reg rm : Nat) (rest : List UInt8) :
    decode (withReg wide [opcode] reg rm ++ rest) =
      decodeShort (.fields (rexByte wide reg 0 rm != 0x40) wide reg 0 rm) opcode
        (modrm 3 reg rm :: rest) := by
  rw [withReg, List.append_assoc, List.append_assoc]
  exact decode_short wide reg 0 rm hop _

/-- An instruction with a memory operand is looked up by its opcode. -/
theorem decode_withMem (wide : Bool) {opcode : UInt8} (hop : isShortOpcode opcode = true)
    (reg : Nat) (m : Mem) (rest : List UInt8) :
    decode (withMem wide [opcode] reg m ++ rest) =
      decodeShort (.fields (rexByte wide reg m.indexNumber m.base.number != 0x40) wide reg
        m.indexNumber m.base.number) opcode (memBytes reg m ++ rest) := by
  rw [withMem, List.append_assoc, List.append_assoc]
  exact decode_short wide reg m.indexNumber m.base.number hop _

/-- An instruction with two registers and an opcode of two bytes is looked up by the second. -/
theorem decode_withReg_long (wide : Bool) (opcode : UInt8) (reg rm : Nat) (rest : List UInt8) :
    decode (withReg wide [0x0f, opcode] reg rm ++ rest) =
      decodeLong (.fields (rexByte wide reg 0 rm != 0x40) wide reg 0 rm) opcode
        (modrm 3 reg rm :: rest) := by
  rw [withReg, List.append_assoc, List.append_assoc]
  exact decode_long wide reg 0 rm opcode _

/-- An instruction with a memory operand and an opcode of two bytes is looked up by the second. -/
theorem decode_withMem_long (wide : Bool) (opcode : UInt8) (reg : Nat) (m : Mem)
    (rest : List UInt8) :
    decode (withMem wide [0x0f, opcode] reg m ++ rest) =
      decodeLong (.fields (rexByte wide reg m.indexNumber m.base.number != 0x40) wide reg
        m.indexNumber m.base.number) opcode (memBytes reg m ++ rest) := by
  rw [withMem, List.append_assoc, List.append_assoc]
  exact decode_long wide reg m.indexNumber m.base.number opcode _

/-- An opcode of one byte with nothing in front is looked up in its table. -/
theorem decode_bare_short {opcode : UInt8} (hop : isShortOpcode opcode = true)
    (rest : List UInt8) :
    decode (opcode :: rest) = decodeShort (.fields false false 0 0 0) opcode rest :=
  decode_short false 0 0 0 hop rest

/-- An opcode of two bytes with nothing in front is looked up in its table. -/
theorem decode_bare_long (opcode : UInt8) (rest : List UInt8) :
    decode (0x0f :: opcode :: rest) = decodeLong (.fields false false 0 0 0) opcode rest :=
  decode_long false 0 0 0 opcode rest

/-- A scalar instruction with two registers is looked up by its opcode. -/
theorem decode_scalar_withReg (precision : Precision) (wide : Bool) (opcode : UInt8) (reg rm : Nat)
    (rest : List UInt8) :
    decode (precision.byte :: withReg wide [0x0f, opcode] reg rm ++ rest) =
      decodeScalar precision (.fields (rexByte wide reg 0 rm != 0x40) wide reg 0 rm) opcode
        (modrm 3 reg rm :: rest) := by
  rw [withReg, List.cons_append, List.append_assoc, List.append_assoc]
  exact decode_scalar precision wide reg 0 rm opcode _

/-- A scalar instruction with a memory operand is looked up by its opcode. -/
theorem decode_scalar_withMem (precision : Precision) (opcode : UInt8) (reg : Nat) (m : Mem)
    (rest : List UInt8) :
    decode (precision.byte :: withMem false [0x0f, opcode] reg m ++ rest) =
      decodeScalar precision (.fields (rexByte false reg m.indexNumber m.base.number != 0x40) false
        reg m.indexNumber m.base.number) opcode (memBytes reg m ++ rest) := by
  rw [withMem, List.cons_append, List.append_assoc, List.append_assoc]
  exact decode_scalar precision false reg m.indexNumber m.base.number opcode _

/-- A packed instruction is looked up by its opcode. -/
theorem decode_packed_withReg (wide : Bool) (opcode : UInt8) (reg rm : Nat) (rest : List UInt8) :
    decode (0x66 :: withReg wide [0x0f, opcode] reg rm ++ rest) =
      decodePacked (.fields (rexByte wide reg 0 rm != 0x40) wide reg 0 rm) opcode
        (modrm 3 reg rm :: rest) := by
  rw [withReg, List.cons_append, List.append_assoc, List.append_assoc]
  exact decode_packed wide reg 0 rm opcode _

/-- The vector register of its own number. -/
@[simp] theorem xmm_val (x : Xmm) : xmm x.val = x := by
  exact Fin.ext (Nat.mod_eq_of_lt x.isLt)

/-- The operands of an extension to 32 bits are read back, if the part is not one that a REX byte is
missing for. -/
theorem decodeLong_extend {rex : Rex} (signed : Bool) (part : Part) {dst src : Reg}
    {bytes rest : List UInt8} (hwide : rex.wide = false)
    (hread : readModrm rex bytes = some (dst.number, .reg src.number, rest))
    (hlow : part = .byte → rex.hasLowByte src.number = true) :
    decodeLong rex (extendOpcode signed part) bytes =
      some (.extend signed part dst src, rest) := by
  cases part with
  | byte =>
      cases signed <;>
        simp [extendOpcode, decodeLong, decodeLong.extend, hwide, hread, hlow rfl]
  | word =>
      cases signed <;> simp [extendOpcode, decodeLong, decodeLong.extend, hwide, hread]

/-- Where the number of a register alone does not name its low byte, there is a REX byte. -/
theorem hasLowByte_fields (dst src : Reg) (h : needsRexAsByte src = false) :
    (Rex.fields (rexByte false dst.number 0 src.number != 0x40) false dst.number 0
      src.number).hasLowByte src.number = true := by
  simp only [needsRexAsByte, Bool.and_eq_false_iff, decide_eq_false_iff_not] at h
  have hlt := src.number_lt
  by_cases hlow : src.number < 4
  · simp [Rex.hasLowByte, hlow]
  · have hbyte : rexByte false dst.number 0 src.number ≠ 0x40 := by
      intro heq
      have hnat := toNat_rexByte false dst.number 0 src.number
      simp only [heq, UInt8.reduceToNat, Bool.false_eq_true, if_false] at hnat
      omega
    simp [Rex.hasLowByte, Rex.fields, hbyte]

/-- **Round trip.** Decoding an encoded instruction gives it back, whatever bytes follow. -/
theorem decode_encode (i : Instr) (rest : List UInt8) :
    decode (encode i ++ rest) = some (i, rest) := by
  cases i with
  | mov size dst src =>
      rw [encode, decode_withReg _ (by decide)]
      simp [decodeShort, readModrm_reg, Reg.number_lt]
  | load size dst src =>
      rw [encode, decode_withMem _ (by decide)]
      simp [decodeShort, readModrm_memBytes, Reg.number_lt]
  | store size dst src =>
      rw [encode, decode_withMem _ (by decide)]
      simp [decodeShort, readModrm_memBytes, Reg.number_lt]
  | storeImm size dst imm =>
      rw [encode, List.append_assoc, decode_withMem _ (by decide)]
      simp [decodeShort, readModrm_memBytes]
  | movImm size dst imm =>
      cases size with
      | dword =>
          have hop := toNat_opcode (by omega : 0xb8 + dst.number % 8 < 256)
          rw [encode, List.append_assoc, List.append_assoc, List.singleton_append,
            decode_short _ _ _ _ (isShortOpcode_of_le (by omega) (by omega) (by omega)),
            decodeShort_movImm _ (by omega) rfl, ofNumber_opcode dst (by decide) (by decide)]
      | qword =>
          rw [encode, List.append_assoc, decode_withReg _ (by decide)]
          simp [decodeShort, readModrm_reg, Reg.number_lt, Rex.size]
  | movImm64 dst imm =>
      have hop := toNat_opcode (by omega : 0xb8 + dst.number % 8 < 256)
      rw [encode, List.append_assoc, List.append_assoc, List.singleton_append,
        decode_short _ _ _ _ (isShortOpcode_of_le (by omega) (by omega) (by omega)),
        decodeShort_movImm64 _ (by omega) rfl, ofNumber_opcode dst (by decide) (by decide)]
  | movSignExtend dst src =>
      rw [encode, decode_withReg _ (by decide)]
      simp [decodeShort, readModrm_reg, Reg.number_lt]
  | extend signed part dst src =>
      rw [encode, List.append_assoc]
      split
      · simp only [List.cons_append, List.nil_append, decode_rexByte_long]
        exact decodeLong_extend signed part rfl
          (readModrm_reg dst.number_lt src.number_lt ..) fun _ => rfl
      · rename_i hnone
        simp only [List.cons_append, List.nil_append, decode_long]
        refine decodeLong_extend signed part rfl
          (readModrm_reg dst.number_lt src.number_lt ..) ?_
        intro hpart
        exact hasLowByte_fields dst src (by simpa [hpart] using hnone)
  | lea dst src =>
      rw [encode, decode_withMem _ (by decide)]
      simp [decodeShort, readModrm_memBytes, Reg.number_lt]
  | leaRip dst disp =>
      rw [encode, List.append_assoc, List.append_assoc]
      simp only [List.cons_append, List.nil_append]
      rw [decode_short _ _ _ _ (by decide)]
      simp [decodeShort, readModrm_rip, Reg.number_lt]
  | alu op size dst src =>
      rw [encode, decode_withReg _ (by cases op <;> decide)]
      cases op <;> simp [decodeShort, AluOp.number, AluOp.ofNumber?, readModrm_reg, Reg.number_lt]
  | aluLoad op size dst src =>
      rw [encode, decode_withMem _ (by cases op <;> decide)]
      cases op <;>
        simp [decodeShort, AluOp.number, AluOp.ofNumber?, readModrm_memBytes, Reg.number_lt]
  | aluStore op size dst src =>
      rw [encode, decode_withMem _ (by cases op <;> decide)]
      cases op <;>
        simp [decodeShort, AluOp.number, AluOp.ofNumber?, readModrm_memBytes, Reg.number_lt]
  | aluImm op size dst imm =>
      have hlow := Nat.mod_eq_of_lt op.number_lt
      have hop : op.number < 16 := Nat.lt_of_lt_of_le op.number_lt (by decide)
      rw [encode]
      split
      · rename_i hfits
        rw [List.append_assoc, decode_withReg _ (by decide)]
        simp [decodeShort, readModrm_reg, Reg.number_lt, hop, hlow,
          toInt32_toInt8_of_fitsByte hfits]
      · rw [List.append_assoc, decode_withReg _ (by decide)]
        simp [decodeShort, readModrm_reg, Reg.number_lt, hop, hlow]
  | aluStoreImm op size dst imm =>
      have hlow := Nat.mod_eq_of_lt op.number_lt
      have hop : op.number < 16 := Nat.lt_of_lt_of_le op.number_lt (by decide)
      rw [encode]
      split
      · rename_i hfits
        rw [List.append_assoc, decode_withMem _ (by decide)]
        simp [decodeShort, readModrm_memBytes, hop, hlow,
          toInt32_toInt8_of_fitsByte hfits]
      · rw [List.append_assoc, decode_withMem _ (by decide)]
        simp [decodeShort, readModrm_memBytes, hop, hlow]
  | imul size dst src =>
      rw [encode, decode_withReg_long]
      simp [decodeLong, readModrm_reg, Reg.number_lt]
  | imulLoad size dst src =>
      rw [encode, decode_withMem_long]
      simp [decodeLong, readModrm_memBytes, Reg.number_lt]
  | signExtendAcc size =>
      rw [encode, List.append_assoc, List.singleton_append, decode_short _ _ _ _ (by decide)]
      simp [decodeShort]
  | idiv size src =>
      rw [encode, decode_withReg _ (by decide)]
      simp [decodeShort, readModrm_reg, Reg.number_lt]
  | neg size dst =>
      rw [encode, decode_withReg _ (by decide)]
      simp [decodeShort, readModrm_reg, Reg.number_lt]
  | shift op size dst =>
      have hlow := Nat.mod_eq_of_lt op.number_lt
      have hop : op.number < 16 := Nat.lt_of_lt_of_le op.number_lt (by decide)
      rw [encode, decode_withReg _ (by decide)]
      simp [decodeShort, readModrm_reg, Reg.number_lt, hop, hlow]
  | test size a b =>
      rw [encode, decode_withReg _ (by decide)]
      simp [decodeShort, readModrm_reg, Reg.number_lt]
  | push src =>
      have hop := toNat_opcode (by omega : 0x50 + src.number % 8 < 256)
      rw [encode, List.append_assoc, List.singleton_append,
        decode_short _ _ _ _ (isShortOpcode_of_le (by omega) (by omega) (by omega)),
        decodeShort_push _ (by omega), ofNumber_opcode src (by decide) (by decide)]
  | pop dst =>
      have hop := toNat_opcode (by omega : 0x58 + dst.number % 8 < 256)
      rw [encode, List.append_assoc, List.singleton_append,
        decode_short _ _ _ _ (isShortOpcode_of_le (by omega) (by omega) (by omega)),
        decodeShort_pop _ (by omega), ofNumber_opcode dst (by decide) (by decide)]
  | jmpReg target =>
      rw [encode, decode_withReg _ (by decide)]
      simp [decodeShort, readModrm_reg, Reg.number_lt]
  | jmpMem target =>
      rw [encode, decode_withMem _ (by decide)]
      simp [decodeShort, readModrm_memBytes]
  | callReg target =>
      rw [encode, decode_withReg _ (by decide)]
      simp [decodeShort, readModrm_reg, Reg.number_lt]
  | ret =>
      exact decode_bare_short (by decide) rest
  | trap =>
      exact decode_bare_long 0x0b rest
  | jumpShort cond disp =>
      cases cond with
      | none =>
          rw [encode, List.cons_append, decode_bare_short (by decide)]
          simp [decodeShort]
      | some cond =>
          have hlt := cond.number_lt
          have hop := toNat_opcode (by omega : 0x70 + cond.number < 256)
          have hlow : (0x70 + cond.number) % 16 = cond.number := by omega
          rw [encode, List.cons_append,
            decode_bare_short (isShortOpcode_of_le (by omega) (by omega) (by omega)),
            decodeShort_jump _ (by omega), hop, hlow, Cond.ofNumber_number]
  | jumpLong cond disp =>
      cases cond with
      | none =>
          rw [encode, List.cons_append, decode_bare_short (by decide)]
          simp [decodeShort]
      | some cond =>
          have hlt := cond.number_lt
          have hop := toNat_opcode (by omega : 0x80 + cond.number < 256)
          have hlow : (0x80 + cond.number) % 16 = cond.number := by omega
          have hhigh : (0x80 + cond.number) / 16 = 0x08 := by omega
          rw [encode, List.cons_append, List.cons_append, decode_bare_long]
          simp only [decodeLong, hop, hlow, hhigh, if_true, readInt32_imm32, Cond.ofNumber_number]
          rfl
  | loadScalar precision dst src =>
      rw [encode, decode_scalar_withMem]
      simp [decodeScalar, readModrm_memBytes]
  | storeScalar precision dst src =>
      rw [encode, decode_scalar_withMem]
      simp [decodeScalar, readModrm_memBytes]
  | sse op precision dst src =>
      rw [encode, decode_scalar_withReg]
      cases op <;> simp [decodeScalar, readModrm_reg, SseOp.number, SseOp.ofNumber?]
  | sseLoad op precision dst src =>
      rw [encode, decode_scalar_withMem]
      cases op <;> simp [decodeScalar, readModrm_memBytes, SseOp.number, SseOp.ofNumber?]
  | ofInt precision size dst src =>
      rw [encode, decode_scalar_withReg]
      simp [decodeScalar, readModrm_reg, Reg.number_lt]
  | toInt precision size dst src =>
      rw [encode, decode_scalar_withReg]
      simp [decodeScalar, readModrm_reg, Reg.number_lt]
  | movToXmm size dst src =>
      rw [encode, decode_packed_withReg]
      simp [decodePacked, readModrm_reg, Reg.number_lt]
  | movFromXmm size dst src =>
      rw [encode, decode_packed_withReg]
      simp [decodePacked, readModrm_reg, Reg.number_lt]
  | ucomis precision a b =>
      cases precision with
      | single =>
          rw [encode, decode_withReg_long]
          simp [decodeLong, readModrm_reg]
      | double =>
          rw [encode, decode_packed_withReg]
          simp [decodePacked, readModrm_reg]
  | convert target dst src =>
      cases target <;>
      · rw [encode, decode_scalar_withReg]
        simp [decodeScalar, readModrm_reg]

/-! ### Lengths -/

/-- A prefix takes one byte if any. -/
theorem length_rex_le (wide : Bool) (reg index base : Nat) :
    (rex wide reg index base).length ≤ 1 := by
  unfold rex
  split <;> simp

/-- A constant of four bytes. -/
theorem length_imm32 (n : Int32) : (imm32 n).length = 4 := length_littleEndian 4 _

/-- A constant of one byte. -/
theorem length_imm8 (n : Int8) : (imm8 n).length = 1 := rfl

/-- A displacement takes four bytes at most. -/
theorem length_dispBytes_le (mode : Nat) (disp : Int32) : (dispBytes mode disp).length ≤ 4 := by
  unfold dispBytes
  split <;> simp [length_imm8, length_imm32]

/-- A memory operand takes six bytes at most. -/
theorem length_memBytes_le (reg : Nat) (m : Mem) : (memBytes reg m).length ≤ 6 := by
  have hdisp := length_dispBytes_le (dispMode m.base m.disp) m.disp
  unfold memBytes
  rw [List.length_append]
  split
  · simp only [List.length_cons, List.length_nil]
    omega
  · split <;>
    · simp only [List.length_cons, List.length_nil]
      omega

/-- The room of an instruction on registers. -/
theorem length_withReg_le (wide : Bool) (opcode : List UInt8) (reg rm : Nat) :
    (withReg wide opcode reg rm).length ≤ opcode.length + 2 := by
  have hrex := length_rex_le wide reg 0 rm
  simp only [withReg, List.length_append, List.length_cons, List.length_nil]
  omega

/-- The room of an instruction on memory. -/
theorem length_withMem_le (wide : Bool) (opcode : List UInt8) (reg : Nat) (m : Mem) :
    (withMem wide opcode reg m).length ≤ opcode.length + 7 := by
  have hrex := length_rex_le wide reg m.indexNumber m.base.number
  have hmem := length_memBytes_le reg m
  simp only [withMem, List.length_append]
  omega

/-- No instruction is longer than the architecture allows. -/
theorem length_encode_le (i : Instr) : (encode i).length ≤ maxInstrLength := by
  unfold maxInstrLength
  cases i with
  | mov | movSignExtend | alu | imul | idiv | neg | shift | test | jmpReg | callReg =>
      exact Nat.le_trans (length_withReg_le ..) (by simp)
  | load | store | lea | aluLoad | aluStore | imulLoad | jmpMem =>
      exact Nat.le_trans (length_withMem_le ..) (by simp)
  | sse | ofInt | toInt | movToXmm | movFromXmm =>
      exact Nat.succ_le_succ (Nat.le_trans (length_withReg_le ..) (by simp))
  | loadScalar | storeScalar | sseLoad =>
      exact Nat.succ_le_succ (Nat.le_trans (length_withMem_le ..) (by simp))
  | storeImm size dst imm =>
      have hmem := length_withMem_le size.isWide [0xc7] 0 dst
      rw [encode, List.length_append, length_imm32]
      simp only [List.length_singleton] at hmem
      omega
  | movImm size dst imm =>
      cases size with
      | dword =>
          have hrex := length_rex_le false 0 0 dst.number
          simp only [encode, List.length_append, List.length_singleton, length_imm32]
          omega
      | qword =>
          have hreg := length_withReg_le true [0xc7] 0 dst.number
          simp only [encode, List.length_append, length_imm32]
          simp only [List.length_singleton] at hreg
          omega
  | movImm64 dst imm =>
      have hrex := length_rex_le true 0 0 dst.number
      simp only [encode, List.length_append, List.length_singleton, length_littleEndian]
      omega
  | extend signed part dst src =>
      have hrex := length_rex_le false dst.number 0 src.number
      rw [encode, List.length_append]
      split <;>
      · simp only [List.length_cons, List.length_nil]
        omega
  | leaRip dst disp =>
      have hrex := length_rex_le true dst.number 0 0
      simp only [encode, List.length_append, List.length_cons, List.length_nil, length_imm32]
      omega
  | aluImm op size dst imm =>
      have h83 := length_withReg_le size.isWide [0x83] op.number dst.number
      have h81 := length_withReg_le size.isWide [0x81] op.number dst.number
      simp only [List.length_singleton] at h83 h81
      rw [encode]
      split <;>
      · simp only [List.length_append, length_imm8, length_imm32]
        omega
  | aluStoreImm op size dst imm =>
      have h83 := length_withMem_le size.isWide [0x83] op.number dst
      have h81 := length_withMem_le size.isWide [0x81] op.number dst
      simp only [List.length_singleton] at h83 h81
      rw [encode]
      split <;>
      · simp only [List.length_append, length_imm8, length_imm32]
        omega
  | signExtendAcc size =>
      have hrex := length_rex_le size.isWide 0 0 0
      simp only [encode, List.length_append, List.length_singleton]
      omega
  | push src =>
      have hrex := length_rex_le false 0 0 src.number
      simp only [encode, List.length_append, List.length_singleton]
      omega
  | pop dst =>
      have hrex := length_rex_le false 0 0 dst.number
      simp only [encode, List.length_append, List.length_singleton]
      omega
  | ret | trap => decide
  | jumpShort cond disp => cases cond <;> simp [encode, length_imm8]
  | jumpLong cond disp => cases cond <;> simp [encode, length_imm32]
  | ucomis precision a b =>
      have hreg := length_withReg_le false [0x0f, 0x2e] a.val b.val
      simp only [List.length_cons, List.length_nil] at hreg
      cases precision <;>
      · simp only [encode, List.length_cons]
        omega
  | convert target dst src =>
      have hreg := length_withReg_le false [0x0f, 0x5a] dst.val src.val
      simp only [List.length_cons, List.length_nil] at hreg
      cases target <;>
      · simp only [encode, List.length_cons]
        omega

/-- Every instruction has bytes. -/
theorem length_encode_pos (i : Instr) : 0 < (encode i).length := by
  refine List.length_pos_iff.mpr fun hnil => ?_
  have h := decode_encode i []
  rw [hnil] at h
  cases h

end X64

end SlotJit

import SlotJit.Codegen.Template
import SlotJit.Machine.Step
import SlotJit.Proofs.Fallible
import SlotJit.Proofs.Machine.Frames
import SlotJit.Proofs.Semantics.SlotMachine

/-!
# Straight code, and operands in registers

Templates are mostly straight code: instructions that go on to the next one wherever they stand
(`Straight`). They work in `rax` and `rcx`, so that whatever happens before the result is stored
changes nothing but those registers and the flags (`Beside`).

A register holds a value of a type in its low part. Loading an operand leaves the value that the
slot machine reads in the register, and storing a register changes the slot as the slot machine
does.
-/

namespace SlotJit.Codegen

open SlotJit.Ir SlotJit.Machine SlotJit.Semantics SlotJit.X64

/-! ### Straight code -/

/-- Executing the instructions one after the other takes one state to another wherever they stand;
the instruction pointer aside. -/
inductive Straight : List Instr → State → State → Prop
  | nil (s : State) : Straight [] s s
  | cons {i : Instr} {is : List Instr} {s t u : State}
      (head : ∀ hosts rip, execute hosts { s with rip } i = .next { t with rip })
      (tail : Straight is t u) : Straight (i :: is) s u

namespace Straight

variable {is js : List Instr} {s t u : State}

/-- One instruction. -/
theorem single {i : Instr}
    (h : ∀ hosts rip, execute hosts { s with rip } i = .next { t with rip }) :
    Straight [i] s t := .cons h (.nil t)

/-- Straight code after straight code. -/
theorem append (h : Straight is s t) (h' : Straight js t u) : Straight (is ++ js) s u := by
  induction h with
  | nil => exact h'
  | cons head _ ih => exact .cons head (ih h')

end Straight

/-- Pieces that are straight code take one state to another. -/
def Leads (pieces : List Piece) (s t : State) : Prop :=
  ∃ instrs : List Instr, pieces = instrs.map .instr ∧ Straight instrs s t

namespace Leads

variable {pieces pieces' : List Piece} {s t u : State}

/-- One instruction, as a piece. -/
theorem single {i : Instr}
    (h : ∀ hosts rip, execute hosts { s with rip } i = .next { t with rip }) :
    Leads [.instr i] s t := ⟨[i], rfl, .single h⟩

/-- Pieces after pieces. -/
theorem append (h : Leads pieces s t) (h' : Leads pieces' t u) : Leads (pieces ++ pieces') s u := by
  obtain ⟨is, rfl, his⟩ := h
  obtain ⟨js, rfl, hjs⟩ := h'
  exact ⟨is ++ js, List.map_append.symm, his.append hjs⟩

/-- An instruction before pieces. -/
theorem cons {i : Instr} (h : ∀ hosts rip, execute hosts { s with rip } i = .next { t with rip })
    (h' : Leads pieces t u) : Leads (.instr i :: pieces) s u :=
  (single h).append h'

end Leads

/-- Nothing is different but the scratch registers, `rdx`, vector registers and the flags. -/
structure Aside (s t : State) : Prop where
  regs : ∀ r, r ≠ .rax → r ≠ .rcx → r ≠ .rdx → t.reg r = s.reg r
  memory : t.memory = s.memory
  lines : t.lines = s.lines

namespace Aside

variable {s t u : State}

/-- Changing scratch state twice. -/
theorem trans (h : Aside s t) (h' : Aside t u) : Aside s u :=
  ⟨fun r hrax hrcx hrdx => (h'.regs r hrax hrcx hrdx).trans (h.regs r hrax hrcx hrdx),
    h'.memory.trans h.memory, h'.lines.trans h.lines⟩

/-- A scratch register may change. -/
theorem setReg {reg : Reg} (hreg : reg = .rax ∨ reg = .rcx ∨ reg = .rdx) (s : State) (w : Word) :
    Aside s (s.setReg reg w) := by
  refine ⟨fun r hrax hrcx hrdx => s.reg_setReg_of_ne reg w ?_, rfl, rfl⟩
  rintro rfl
  rcases hreg with rfl | rfl | rfl
  · exact hrax rfl
  · exact hrcx rfl
  · exact hrdx rfl

/-- Flags may change. -/
theorem flags (s : State) (flags : Flags) : Aside s { s with flags } :=
    ⟨fun _ _ _ _ => rfl, rfl, rfl⟩

/-- A vector register may change. -/
theorem xmm (s : State) (x : Xmm) (w : Word) : Aside s (s.setXmm x w) :=
    ⟨fun _ _ _ _ => rfl, rfl, rfl⟩

/-- What is seen of a frame is the same. -/
theorem sees {base count : Nat} {frame : Frame} (h : Aside s t) (hs : s.Sees base count frame) :
    t.Sees base count frame := by
  refine ⟨⟨?_, ?_, ?_⟩, ?_⟩
  · rw [h.regs _ (by decide) (by decide) (by decide), h.memory, hs.rsi]
  · rw [h.memory]
    exact hs.fits
  · rw [h.memory]
    exact hs.slotsFit
  · rw [h.memory]
    exact hs.slots

end Aside

/-- Nothing is different but the scratch registers and the flags. -/
structure Beside (s t : State) : Prop where
  regs : ∀ r, r ≠ .rax → r ≠ .rcx → t.reg r = s.reg r
  memory : t.memory = s.memory
  xmms : t.xmms = s.xmms
  lines : t.lines = s.lines

namespace Beside

variable {s t u : State}

/-- Nothing changes. -/
theorem refl (s : State) : Beside s s := ⟨fun _ _ _ => rfl, rfl, rfl, rfl⟩

/-- Changing registers for operands twice. -/
theorem trans (h : Beside s t) (h' : Beside t u) : Beside s u :=
  ⟨fun r hrax hrcx => (h'.regs r hrax hrcx).trans (h.regs r hrax hrcx), h'.memory.trans h.memory,
    h'.xmms.trans h.xmms, h'.lines.trans h.lines⟩

/-- The first register may change. -/
theorem rax (s : State) (w : Word) : Beside s (s.setReg .rax w) :=
  ⟨fun _ hrax _ => s.reg_setReg_of_ne .rax w hrax, rfl, rfl, rfl⟩

/-- The second register may change. -/
theorem rcx (s : State) (w : Word) : Beside s (s.setReg .rcx w) :=
  ⟨fun _ _ hrcx => s.reg_setReg_of_ne .rcx w hrcx, rfl, rfl, rfl⟩

/-- Flags may change here too. -/
theorem flags (s : State) (flags : Flags) : Beside s { s with flags } :=
  ⟨fun _ _ _ => rfl, rfl, rfl, rfl⟩

/-- A register for operands is a scratch register. -/
theorem aside (h : Beside s t) : Aside s t :=
    ⟨fun r hrax hrcx _ => h.regs r hrax hrcx, h.memory, h.lines⟩

/-- What is seen of a frame is the same. -/
theorem sees {base count : Nat} {frame : Frame} (h : Beside s t) (hs : s.Sees base count frame) :
    t.Sees base count frame :=
  h.aside.sees hs

end Beside

/-! ### Values in parts of words -/

/-- The value of a type whose bits are given. -/
def valueOf : (ty : ValueType) → BitVec (width (sizeOf ty)) → Value
  | .int, x => .int x
  | .long, x => .long x
  | .float, x => .float x
  | .double, x => .double x
  | .ref, x => .ref x

/-- The value of a type in a word is in the part that the type covers. -/
theorem ofBits_eq_valueOf (ty : ValueType) (w : Word) :
    Value.ofBits ty w = valueOf ty (w.low (sizeOf ty)) := by
  rw [Word.low_eq]
  cases ty <;> simp [Value.ofBits, valueOf, sizeOf, location]

/-- Every value is its part. -/
theorem exists_valueOf {v : Value} {ty : ValueType} (h : v.type = ty) : ∃ x, v = valueOf ty x := by
  subst h
  cases v <;> exact ⟨_, rfl⟩

/-- The low bits of a word made from them. -/
@[simp] theorem low_setWidth (size : Size) (x : BitVec (width size)) :
    Word.low size (x.setWidth 64) = x := by
  have hle : width size ≤ 64 := by cases size <;> decide
  rw [Word.low_eq, BitVec.setWidth_setWidth_of_le x hle, BitVec.setWidth_eq]

/-- The part of a word is unchanged by reading it as a part. -/
theorem setWidth_low_part (size : Size) (w : Word) :
    (Word.low size (Memory.part size w)).setWidth 64 = Memory.part size w := by
  rw [Word.low_eq]
  cases size with
  | dword => simp [Memory.part, Word.lowHalf_eq]
  | qword => simp [Memory.part]

/-- A part of a register that was written. -/
@[simp] theorem regPart_setPart_same (s : State) (size : Size) (r : Reg) (x : BitVec (width size)) :
    (s.setPart size r x).regPart size r = x := by
  rw [State.regPart, State.setPart, State.reg_setReg_same, low_setWidth]

/-- A part of another register. -/
theorem regPart_setPart_of_ne (s : State) (size : Size) {r r' : Reg} (x : BitVec (width size))
    (h : r' ≠ r) : (s.setPart size r x).regPart size r' = s.regPart size r' :=
  congrArg (Word.low size) (s.reg_setReg_of_ne r _ h)

/-- The bits of a value made from them. -/
@[simp] theorem low_bits_valueOf (ty : ValueType) (x : BitVec (width (sizeOf ty))) :
    Word.low (sizeOf ty) (valueOf ty x).bits = x := by
  cases ty with
  | int | float => exact low_setWidth .dword x
  | long | double | ref => rfl

/-! ### Constants -/

/-- A number that has 32 bits is what they stand for. -/
theorem ofInt32_of_int32? {n : Int64} {imm : Int32} (h : int32? n = some imm) :
    Word.ofInt32 imm = n.toBitVec := by
  unfold int32? at h
  split at h
  · rename_i heq
    cases h
    exact congrArg Int64.toBitVec heq
  · cases h

/-- The low half of a number. -/
theorem setWidth_toBitVec (n : Int64) : n.toBitVec.setWidth 32 = n.toInt32.toBitVec := by
  rw [Int64.toBitVec_toInt32, BitVec.signExtend_eq_setWidth_of_le _ (by decide)]

/-- A constant has the bits of its value. -/
theorem ofBits_constant {frame : Frame} {operand : Operand} {ty : ValueType} {v : Value}
    {bits : Int64} (hread : readOperand frame operand ty = some v)
    (hbits : constBits? operand = some bits) :
    Value.ofBits ty bits.toBitVec = v := by
  cases operand with
  | branch | flags | slot | symbol => cases hbits
  | int value =>
      cases hbits
      cases ty with
      | int =>
          cases hread
          rw [Value.ofBits, setWidth_toBitVec]
      | long | ref =>
          cases hread
          rfl
      | float | double => cases hread
  | float value =>
      cases hbits
      cases ty <;> cases hread
      rw [Value.ofBits, setWidth_toBitVec, Int32.toInt32_toInt64]
      rfl
  | double value =>
      cases hbits
      cases ty <;> cases hread
      rfl

/-- Loading a constant clears what is above it. -/
theorem execute_loadImm (size : Size) (reg : Reg) (value : Int64) (s : State) (hosts : Hosts)
    (rip : Word) : execute hosts { s with rip } (loadImm size reg value) =
      .next { s.setPart size reg (Word.low size value.toBitVec) with rip } := by
  unfold loadImm
  split
  · rw [Word.low_eq, setWidth_toBitVec]
    rfl
  · rename_i imm hfits
    show Progress.next { s.setPart .qword reg (Word.ofInt32 imm) with rip } = _
    rw [ofInt32_of_int32? hfits]
    rfl
  · show Progress.next { s.setReg reg value.toBitVec with rip } = _
    rw [← BitVec.setWidth_eq value.toBitVec]
    rfl

/-! ### Loading and storing -/

section Operands

variable {base count : Nat} {frame : Frame} {s : State} {inst : Inst} {ty : ValueType} {reg : Reg}
  {operand : Operand} {pieces : List Piece} {v : Value}

/-- What is seen of a frame does not depend on the instruction pointer. -/
theorem sees_rip (hs : s.Sees base count frame) (rip : Word) :
    State.Sees base count frame { s with rip } :=
  ⟨⟨hs.rsi, hs.fits, hs.slotsFit⟩, hs.slots⟩

/-- A constant has bits. -/
theorem constant_eq_ok {bits : Int64} (h : constant inst operand = .ok bits) :
    constBits? operand = some bits := by
  unfold constant at h
  split at h
  · cases h
    assumption
  · cases h

/-- An operand that is no slot is loaded as a constant. -/
theorem load_of_constant (hslot : ∀ index, operand ≠ .slot index)
    (h : load inst ty reg operand = .ok pieces) :
    ∃ bits, constBits? operand = some bits ∧ pieces = [.instr (loadImm (sizeOf ty) reg bits)] := by
  have h' : (do
      let bits ← constant inst operand
      return [.instr (loadImm (sizeOf ty) reg bits)] : Code) = .ok pieces := by
    cases operand with
    | slot index => exact absurd rfl (hslot index)
    | branch | flags | int | float | double | symbol => exact h
  obtain ⟨bits, hbits, h'⟩ := bind_eq_ok.mp h'
  cases h'
  exact ⟨bits, constant_eq_ok hbits, rfl⟩

/-- Loading an operand is one instruction. -/
theorem exists_instr_of_load (h : load inst ty reg operand = .ok pieces) :
    ∃ i, pieces = [.instr i] := by
  by_cases hslot : ∃ index, operand = .slot index
  · obtain ⟨index, rfl⟩ := hslot
    obtain ⟨disp, -, h⟩ := bind_eq_ok.mp h
    cases h
    exact ⟨_, rfl⟩
  · obtain ⟨bits, -, rfl⟩ := load_of_constant (fun index heq => hslot ⟨index, heq⟩) h
    exact ⟨_, rfl⟩

/-- The bits of an operand at a type: of a slot or of a constant, whatever the constant was made
for. -/
def operandBits? (frame : Frame) (ty : ValueType) : Operand → Option (BitVec (width (sizeOf ty)))
  | .slot index => some (Word.low (sizeOf ty) (frame.get ty index).bits)
  | operand => (constBits? operand).map fun bits => Word.low (sizeOf ty) bits.toBitVec

/-- The bits of a constant. -/
theorem operandBits?_of_constant (hslot : ∀ index, operand ≠ .slot index) :
    operandBits? frame ty operand =
      (constBits? operand).map fun bits => Word.low (sizeOf ty) bits.toBitVec := by
  cases operand with
  | slot index => exact absurd rfl (hslot index)
  | branch | flags | int | float | double | symbol => rfl

/-- Where an operand has a value of a type, its bits are those of the value. -/
theorem operandBits?_of_readOperand (hread : readOperand frame operand ty = some v)
    {x : BitVec (width (sizeOf ty))} (hx : operandBits? frame ty operand = some x) :
    valueOf ty x = v := by
  by_cases hslot : ∃ index, operand = .slot index
  · obtain ⟨index, rfl⟩ := hslot
    cases hread
    cases hx
    have hvalue := ofBits_bits (frame.get ty index)
    rwa [Frame.type_get, ofBits_eq_valueOf] at hvalue
  · rw [operandBits?_of_constant fun index heq => hslot ⟨index, heq⟩] at hx
    obtain ⟨bits, hbits, rfl⟩ := Option.map_eq_some_iff.mp hx
    rw [← ofBits_eq_valueOf, ofBits_constant hread hbits]

/-- Loading an operand leaves its bits in the register, with zeros above. -/
theorem leads_loadPart (hs : s.Sees base count frame) (hcount : count < 2 ^ 31)
    (hin : ∀ index, operand = .slot index → index < count)
    (h : load inst ty reg operand = .ok pieces) :
    ∃ x, operandBits? frame ty operand = some x ∧ Leads pieces s (s.setPart (sizeOf ty) reg x) := by
  by_cases hslot : ∃ index, operand = .slot index
  · obtain ⟨index, rfl⟩ := hslot
    obtain ⟨disp, hdisp, h⟩ := bind_eq_ok.mp h
    cases h
    refine ⟨_, rfl, .single fun hosts rip => ?_⟩
    have hbits : (Word.low (sizeOf ty) (frame.get ty index).bits).setWidth 64 =
        (frame.get ty index).bits := by
      have hpart := bits_ofBits ty (frame.get ty index).bits
      have hvalue := ofBits_bits (frame.get ty index)
      rw [Frame.type_get] at hvalue
      rw [hvalue] at hpart
      rw [hpart, setWidth_low_part]
    refine ((sees_rip hs rip).loading hcount (hin index rfl) hdisp ty
      fun t value => .next (t.setReg reg value)).trans ?_
    rw [State.setPart, hbits]
    rfl
  · have hconstant := fun index heq => hslot ⟨index, heq⟩
    obtain ⟨bits, hbits, rfl⟩ := load_of_constant hconstant h
    refine ⟨Word.low (sizeOf ty) bits.toBitVec, ?_,
      .single (execute_loadImm (sizeOf ty) reg bits s)⟩
    rw [operandBits?_of_constant hconstant, hbits, Option.map_some]

/-- Loading an operand leaves its bits in the register. -/
theorem leads_loadBits (hs : s.Sees base count frame) (hcount : count < 2 ^ 31)
    (hin : ∀ index, operand = .slot index → index < count)
    (h : load inst ty reg operand = .ok pieces) :
    ∃ w, operandBits? frame ty operand = some (Word.low (sizeOf ty) w) ∧
      Leads pieces s (s.setReg reg w) := by
  obtain ⟨x, hx, hleads⟩ := leads_loadPart hs hcount hin h
  exact ⟨x.setWidth 64, by rw [hx, low_setWidth], hleads⟩

/-- Loading an operand leaves its value in the register. -/
theorem leads_load (hs : s.Sees base count frame) (hcount : count < 2 ^ 31)
    (hin : ∀ index, operand = .slot index → index < count)
    (hread : readOperand frame operand ty = some v) (h : load inst ty reg operand = .ok pieces) :
    ∃ w, Leads pieces s (s.setReg reg w) ∧ Value.ofBits ty w = v := by
  obtain ⟨w, hbits, hleads⟩ := leads_loadBits hs hcount hin h
  exact ⟨w, hleads, by rw [ofBits_eq_valueOf, operandBits?_of_readOperand hread hbits]⟩

/-- Storing a register stores the value in it. -/
theorem leads_store {dst : Nat} (hs : s.Sees base count frame) (hcount : count < 2 ^ 31)
    (hdst : inst.dst = some (.slot dst)) (hin : dst < count) (h : store inst ty reg = .ok pieces) :
    Leads pieces s (s.put (base + dst) (.ofBits ty (s.reg reg))) := by
  unfold store at h
  obtain ⟨index, hindex, h⟩ := bind_eq_ok.mp h
  obtain ⟨disp, hdisp, h⟩ := bind_eq_ok.mp h
  cases h
  rw [dstSlot, hdst] at hindex
  cases hindex
  exact .single fun hosts rip => (sees_rip hs rip).storing hcount hin hdisp ty _ _

end Operands

/-! ### Results -/

/-- An int or a long was stored to a slot of the array. Every other byte of memory is as it was, and
so are all registers but scratch registers and `rdx`. -/
structure StoresOnly (ty : Integral) (j : Nat) (x : BitVec (width (sizeOf ty.valueType)))
    (s t : State) : Prop where
  value : (t.memory.slots[j]?).map (Value.ofSlot ty.valueType) = some (valueOf ty.valueType x)
  bytes : ∀ i k, ¬ (i = j ∧ k < width (sizeOf ty.valueType) / 8) →
    (t.memory.slots[i]?).map (Slot.byte k) = (s.memory.slots[i]?).map (Slot.byte k)
  heap : t.memory.heap = s.memory.heap
  stack : t.memory.stack = s.memory.stack
  lines : t.lines = s.lines
  regs : ∀ r, r ≠ .rax → r ≠ .rcx → r ≠ .rdx → t.reg r = s.reg r

/-- The type of a value made from bits. -/
theorem type_valueOf (ty : ValueType) (x : BitVec (width (sizeOf ty))) :
    (valueOf ty x).type = ty := by
  cases ty <;> rfl

/-- A result is stored after scratch work. -/
theorem Aside.storesOnly {ty : Integral} {j : Nat} {x : BitVec (width (sizeOf ty.valueType))}
    {s t : State} (h : Aside s t) (hj : j < s.memory.slots.size) :
    StoresOnly ty j x s (t.put j (valueOf ty.valueType x)) := by
  have hty := type_valueOf ty.valueType x
  have hslots : (t.put j (valueOf ty.valueType x)).memory.slots =
      s.memory.slots.modify j (valueOf ty.valueType x).store := by rw [State.put, h.memory]
  refine ⟨?_, fun i k hik => ?_, ?_, ?_, h.lines, h.regs⟩
  · have hstored := Value.ofSlot_store (valueOf ty.valueType x) s.memory.slots[j]
    rw [hty] at hstored
    rw [hslots, Array.getElem?_modify, if_pos rfl, Array.getElem?_eq_getElem hj, Option.map_some,
      Option.map_some, hstored]
  · rw [hslots, Array.getElem?_modify]
    split
    · rename_i heq
      have hk : width (sizeOf ty.valueType) / 8 ≤ k :=
        Nat.le_of_not_lt fun hlt => hik ⟨heq.symm, hlt⟩
      rw [Option.map_map]
      exact congrArg (Option.map · _) (funext fun slot => Slot.byte_store hty hk slot)
    · rfl
  · rw [← h.memory]
    rfl
  · rw [← h.memory]
    rfl

end SlotJit.Codegen

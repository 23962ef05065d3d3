import SlotJit.Proofs.Codegen.Operands

/-!
# Templates that compute

Each template that computes a value leaves everything as it was but for the scratch registers, the
flags and the destination slot, which has the value stored that the slot machine stores
(`Delivers`). That is so whichever of the slots of an instruction are the same: operands are read
before the destination is written, and the forms that work on the destination in place read it
themselves.
-/

namespace SlotJit.Codegen

open SlotJit.Ir SlotJit.Machine SlotJit.Semantics SlotJit.X64

/-- The pieces store a value to a slot of the array and change nothing else but scratch registers
and flags. -/
def Delivers (pieces : List Piece) (s : State) (j : Nat) (v : Value) : Prop :=
  ∃ t, Beside s t ∧ Leads pieces s (t.put j v)

section

variable {base count : Nat} {frame : Frame} {s : State} {inst : Inst} {pieces : List Piece}
  {a b : Operand} {op : AluOp} {ty : Integral}

/-- The argument at a place. -/
theorem argument_eq_ok {index : Nat} (h : argument inst index = .ok a) :
    inst.args[index]? = some a := by
  unfold argument at h
  split at h
  · cases h
    assumption
  · cases h

/-! ### Operations on `rax` -/

/-- What an operation on `rax` leaves. -/
theorem aluReg_spec (s : State) (op : AluOp) (size : Size) (b : BitVec (width size)) :
    Beside s (s.aluReg op size .rax b) ∧
      (s.aluReg op size .rax b).flags = (alu op (s.regPart size .rax) b).2 ∧
      (keepsResult op = true →
        (s.aluReg op size .rax b).regPart size .rax = (alu op (s.regPart size .rax) b).1) := by
  unfold State.aluReg
  simp only
  split
  · exact ⟨(Beside.flags s _).trans (Beside.rax _ _), rfl, fun _ => regPart_setPart_same ..⟩
  · rename_i hkeeps
    exact ⟨Beside.flags s _, rfl, fun h => absurd h hkeeps⟩

/-- A register combined with itself is cleared, the upper half too. -/
theorem regPart_clear (s : State) (size : Size) :
    (s.aluReg .xor .dword .rax (s.regPart .dword .rax)).regPart size .rax = 0 := by
  have hrax : (s.aluReg .xor .dword .rax (s.regPart .dword .rax)).reg .rax = 0 := by
    show ((State.setReg _ .rax _).reg .rax) = 0
    rw [State.reg_setReg_same]
    simp
  rw [State.regPart, hrax]
  cases size <;> rfl

/-- An operation on a register does not look at the instruction pointer. -/
theorem aluReg_rip (s : State) (op : AluOp) (size : Size) (reg : Reg) (b : BitVec (width size))
    (rip : Word) :
    State.aluReg { s with rip } op size reg b = { s.aluReg op size reg b with rip } := by
  unfold State.aluReg
  simp only
  split <;> rfl

/-- A constant of 32 bits has the part that it stands for. -/
theorem constant_of_int32? {value : Int64} {imm : Int32} (h : int32? value = some imm)
    (size : Size) : Machine.constant size imm = Word.low size value.toBitVec := by
  have hword := ofInt32_of_int32? h
  cases size with
  | dword =>
      unfold int32? at h
      split at h
      · cases h
        exact (setWidth_toBitVec value).symm.trans (Word.low_eq .dword _).symm
      · cases h
  | qword => exact hword

/-- An operation on `rax` and a constant. -/
theorem leads_aluConstant (s : State) (op : AluOp) (size : Size) (value : Int64) :
    ∃ t, Beside s t ∧ t.reg .rax = s.reg .rax ∧
      Leads (match int32? value with
          | some imm => [.instr (.aluImm op size .rax imm)]
          | none => [.instr (.movImm64 .rcx value), .instr (.alu op size .rax .rcx)])
        s (t.aluReg op size .rax (Word.low size value.toBitVec)) := by
  split
  · rename_i imm hfits
    refine ⟨s, .refl s, rfl, .single fun hosts rip => ?_⟩
    rw [← constant_of_int32? hfits, execute, aluReg_rip]
  · refine ⟨s.setReg .rcx value.toBitVec, .rcx s _, s.reg_setReg_of_ne .rcx _ (by decide), ?_⟩
    refine .cons (t := s.setReg .rcx value.toBitVec) (fun hosts rip => rfl)
      (.single fun hosts rip => ?_)
    have hrcx : State.regPart { s.setReg .rcx value.toBitVec with rip } size .rcx =
        Word.low size value.toBitVec :=
      congrArg (Word.low size) (s.reg_setReg_same .rcx value.toBitVec)
    rw [execute, hrcx, aluReg_rip]

/-- An operation on `rax` and the least number of a width. -/
theorem leads_aluLeast (s : State) (op : AluOp) (size : Size) :
    ∃ t, Beside s t ∧ t.reg .rax = s.reg .rax ∧
      Leads (match size with
          | .dword => [.instr (.aluImm op .dword .rax Int32.minValue)]
          | .qword => [.instr (.movImm64 .rcx Int64.minValue), .instr (.alu op .qword .rax .rcx)])
        s (t.aluReg op size .rax (.intMin _)) := by
  cases size with
  | dword =>
      have h := leads_aluConstant s op .dword Int32.minValue.toInt64
      have hfits : int32? Int32.minValue.toInt64 = some Int32.minValue := by decide
      simp only [hfits] at h
      exact h
  | qword =>
      have h := leads_aluConstant s op .qword Int64.minValue
      have hfits : int32? Int64.minValue = none := by decide
      simp only [hfits] at h
      exact h

/-- An operation on `rax` and the value in a slot. -/
theorem leads_aluLoad (hs : s.Sees base count frame) (hcount : count < 2 ^ 31) {index : Nat}
    (hin : index < count) {disp : Int32} (hdisp : slotDisp index = .ok disp) (op : AluOp)
    (ty : ValueType) :
    Leads [.instr (.aluLoad op (sizeOf ty) .rax (frameMem (disp + (location ty).2)))] s
      (s.aluReg op (sizeOf ty) .rax (Word.low (sizeOf ty) (frame.get ty index).bits)) := by
  refine .single fun hosts rip => ?_
  rw [execute, (sees_rip hs rip).loading hcount hin hdisp, aluReg_rip]

/-- Integers are at the start of a slot. -/
theorem add_location (ty : Integral) (disp : Int32) : disp + (location ty.valueType).2 = disp := by
  cases ty <;> exact Int32.add_zero disp

theorem valueOf_injective {ty : ValueType} {x y : BitVec (width (sizeOf ty))}
    (h : valueOf ty x = valueOf ty y) : x = y := by
  have := congrArg (fun v => Word.low (sizeOf ty) v.bits) h
  simpa using this

/-- The part of a constant. -/
theorem low_constant {operand : Operand} {ty : ValueType} {x : BitVec (width (sizeOf ty))}
    {bits : Int64} (hread : readOperand frame operand ty = some (valueOf ty x))
    (hbits : constBits? operand = some bits) : Word.low (sizeOf ty) bits.toBitVec = x := by
  have h := ofBits_constant hread hbits
  rw [ofBits_eq_valueOf] at h
  exact valueOf_injective h

/-- The part of the value in a slot. -/
theorem low_slot {index : Nat} {ty : ValueType} {x : BitVec (width (sizeOf ty))}
    (hread : readOperand frame (.slot index) ty = some (valueOf ty x)) :
    Word.low (sizeOf ty) (frame.get ty index).bits = x := by
  rw [Option.some.inj hread, low_bits_valueOf]

/-- An operation on `rax` and an operand. -/
theorem leads_aluOperand (hs : s.Sees base count frame) (hcount : count < 2 ^ 31)
    {operand : Operand} {y : BitVec (width (sizeOf ty.valueType))}
    (hin : ∀ index, operand = .slot index → index < count)
    (hread : readOperand frame operand ty.valueType = some (valueOf _ y))
    (h : aluOperand inst op (sizeOf ty.valueType) operand = .ok pieces) :
    ∃ t, Beside s t ∧ t.reg .rax = s.reg .rax ∧
      Leads pieces s (t.aluReg op (sizeOf ty.valueType) .rax y) := by
  cases operand with
  | slot index =>
      obtain ⟨disp, hdisp, h⟩ := bind_eq_ok.mp h
      cases h
      have hleads := leads_aluLoad hs hcount (hin index rfl) hdisp op ty.valueType
      rw [add_location, low_slot hread] at hleads
      exact ⟨s, .refl s, rfl, hleads⟩
  | int value =>
      have hleads := leads_aluConstant s op (sizeOf ty.valueType) value
      rw [low_constant hread rfl] at hleads
      cases hfits : int32? value <;>
      · simp only [aluOperand, hfits] at h hleads
        cases h
        exact hleads
  | branch | flags | float | double | symbol => cases h

variable {dst : Nat}

theorem dstSlot_eq_ok (h : dstSlot inst = .ok dst) : inst.dst = some (.slot dst) := by
  unfold dstSlot at h
  split at h
  · cases h
    assumption
  · cases h

/-- The part of a register that holds a value. -/
theorem regPart_of_ofBits {ty : ValueType} {x : BitVec (width (sizeOf ty))} {reg : Reg}
    (h : Value.ofBits ty (s.reg reg) = valueOf ty x) : s.regPart (sizeOf ty) reg = x := by
  rw [ofBits_eq_valueOf] at h
  exact valueOf_injective h

/-- Arithmetic in place. -/
theorem execute_aluMem (hs : s.Sees base count frame) (hcount : count < 2 ^ 31) (hin : dst < count)
    {disp : Int32} (hdisp : slotDisp dst = .ok disp) (hop : keepsResult op = true)
    {x : BitVec (width (sizeOf ty.valueType))}
    (hx : readOperand frame (.slot dst) ty.valueType = some (valueOf _ x))
    (y : BitVec (width (sizeOf ty.valueType))) (rip : Word) :
    State.aluMem { s with rip } op (sizeOf ty.valueType) (frameMem disp) y =
      .next { State.put { s with flags := (alu op x y).2 } (base + dst) (valueOf _ (alu op x y).1)
        with rip } := by
  have hsees := sees_rip hs rip
  rw [← add_location ty disp, State.aluMem, hsees.loading hcount hin hdisp, low_slot hx]
  simp only [hop, if_true]
  rw [hsees.storing hcount hin hdisp, ofBits_eq_valueOf, low_setWidth]
  rfl

/-- What a multiplication of `rax` leaves. -/
theorem imulReg_spec (s : State) (size : Size) (b : BitVec (width size)) :
    Beside s (s.imulReg size .rax b) ∧
      (s.imulReg size .rax b).regPart size .rax = s.regPart size .rax * b := by
  refine ⟨(Beside.flags s _).trans (Beside.rax _ _), ?_⟩
  unfold State.imulReg State.setPart
  rw [State.regPart, State.reg_setReg_same, low_setWidth]
  exact product_eq _ _

/-- The distance of a shift is the int in `rcx`, up to the width. -/
theorem mod_width {w : Word} {c : BitVec 32} (h : Value.ofBits .int w = .int c) (size : Size) :
    w.toNat % width size = c.toNat % width size := by
  have hc : w.setWidth 32 = c := by
    rw [Value.ofBits] at h
    exact Value.int.inj h
  rw [← hc, BitVec.toNat_setWidth]
  cases size <;> exact (Nat.mod_mod_of_dvd _ (by decide)).symm

/-- The pieces that flip the sign bit of `rax`. -/
theorem leads_flip (t : State) (ty : Floating) :
    ∃ t', Beside t t' ∧ t'.reg .rax = t.reg .rax ∧
      Leads (match ty with
          | .float => [.instr (.aluImm .xor .dword .rax Int32.minValue)]
          | .double =>
              [.instr (.movImm64 .rcx Int64.minValue), .instr (.alu .xor .qword .rax .rcx)])
        t (t'.aluReg .xor (sizeOf ty.valueType) .rax (.intMin _)) := by
  cases ty with
  | float => exact leads_aluLeast t .xor .dword
  | double => exact leads_aluLeast t .xor .qword

/-- A long that is read as an int is cut down. -/
theorem readOperand_wrap {x : BitVec 64} (h : readOperand frame a .long = some (.long x)) :
    readOperand frame a .int = some (.int (x.setWidth 32)) := by
  cases a with
  | slot index =>
      have hx : (frame index).scalar = x := Value.long.inj (Option.some.inj h)
      rw [← hx]
      rfl
  | int value =>
      cases h
      rw [readOperand, setWidth_toBitVec]
  | branch | flags | float | double | symbol => cases h

/-- The type of what is read. -/
theorem type_of_readOperand {ty : ValueType} {v : Value} (h : readOperand frame a ty = some v) :
    v.type = ty := by
  cases a with
  | slot index =>
      cases h
      exact Frame.type_get frame ty index
  | branch | flags | symbol => cases h
  | int | float | double => cases ty <;> cases h <;> rfl

/-- What the instruction that cuts an int down leaves. -/
theorem execute_narrowInstr (target : Narrow) (t : State) {x : BitVec 32}
    (hx : Value.ofBits .int (t.reg .rax) = .int x) (hosts : Hosts) (rip : Word) :
    execute hosts { t with rip } (narrowInstr target) =
      .next { t.setReg .rax ((narrowInt target x).setWidth 64) with rip } := by
  have hword : (t.reg .rax).setWidth 32 = x := Value.int.inj hx
  have hpart : ∀ n ≤ 32, (t.reg .rax).setWidth n = x.setWidth n := by
    intro n hn
    rw [← hword, BitVec.setWidth_setWidth_of_le _ hn]
  cases target with
  | byte =>
      rw [narrowInt, ← hpart 8 (by decide)]
      rfl
  | char | short =>
      rw [narrowInt, ← hpart 16 (by decide)]
      rfl

/-! ### Computing in `rax` and storing -/

variable (hs : s.Sees base count frame) (hcount : count < 2 ^ 31) (hin : InFrame count inst)
  (hdst : inst.dst = some (.slot dst))

include hs hcount hin hdst

/-- A value is loaded, something is computed from it in `rax`, and the result is stored. -/
theorem delivers_of_compute (ha : inst.args[0]? = some a)
    {source target : ValueType} {u v : Value} (hread : readOperand frame a source = some u)
    {loaded compute stored : List Piece} (hload : load inst source .rax a = .ok loaded)
    (hstore : store inst target .rax = .ok stored)
    (hcompute : ∀ t : State, t.Sees base count frame → Value.ofBits source (t.reg .rax) = u →
      ∃ t', Beside t t' ∧ Leads compute t t' ∧ Value.ofBits target (t'.reg .rax) = v) :
    Delivers (loaded ++ compute ++ stored) s (base + dst) v := by
  obtain ⟨w, hloaded, hw⟩ := leads_load hs hcount (hin.argument ha) hread hload
  have hbeside := Beside.rax s w
  obtain ⟨t, hbeside', hcomputed, hvalue⟩ := hcompute _ (hbeside.sees hs) (by
    rw [State.reg_setReg_same]
    exact hw)
  have ht := hbeside.trans hbeside'
  have hstored := leads_store (ht.sees hs) hcount hdst (hin.dst dst hdst) hstore
  rw [hvalue] at hstored
  exact ⟨t, ht, (hloaded.append hcomputed).append hstored⟩

/-- A template that loads its one operand, computes something from it in `rax` and stores the
result. -/
theorem delivers_unary (hargs : inst.args = [a]) {source target : ValueType} {u v : Value}
    (hread : readOperand frame a source = some u) {compute : List Piece}
    (h : (do
      let a ← argument inst 0
      return (← load inst source .rax a) ++ compute ++ (← store inst target .rax) : Code) =
        .ok pieces)
    (hcompute : ∀ t : State, t.Sees base count frame → Value.ofBits source (t.reg .rax) = u →
      ∃ t', Beside t t' ∧ Leads compute t t' ∧ Value.ofBits target (t'.reg .rax) = v) :
    Delivers pieces s (base + dst) v := by
  have ha : inst.args[0]? = some a := by rw [hargs]; rfl
  obtain ⟨a', ha', h⟩ := bind_eq_ok.mp h
  cases ha.symm.trans (argument_eq_ok ha')
  obtain ⟨loaded, hload, h⟩ := bind_eq_ok.mp h
  obtain ⟨stored, hstore, h⟩ := bind_eq_ok.mp h
  cases h
  exact delivers_of_compute hs hcount hin hdst ha hread hload hstore hcompute

/-- Arithmetic that is not in place. -/
theorem delivers_aluGeneral (hop : keepsResult op = true)
    (ha : inst.args[0]? = some a) (hb : inst.args[1]? = some b)
    {x y : BitVec (width (sizeOf ty.valueType))}
    (hx : readOperand frame a ty.valueType = some (valueOf _ x))
    (hy : readOperand frame b ty.valueType = some (valueOf _ y))
    {loaded operated stored : List Piece} (hload : load inst ty.valueType .rax a = .ok loaded)
    (hoperate : aluOperand inst op (sizeOf ty.valueType) b = .ok operated)
    (hstore : store inst ty.valueType .rax = .ok stored) :
    Delivers (loaded ++ operated ++ stored) s (base + dst) (valueOf _ (alu op x y).1) := by
  refine delivers_of_compute hs hcount hin hdst ha hx hload hstore fun t ht hrax => ?_
  obtain ⟨t', hbeside, hkept, hleads⟩ := leads_aluOperand ht hcount (hin.argument hb) hy hoperate
  obtain ⟨hbeside', -, hresult⟩ := aluReg_spec t' op (sizeOf ty.valueType) y
  refine ⟨_, hbeside.trans hbeside', hleads, ?_⟩
  rw [ofBits_eq_valueOf]
  refine congrArg _ ((hresult hop).trans ?_)
  rw [State.regPart, hkept]
  rw [← regPart_of_ofBits hrax]
  rfl

/-- Arithmetic with a memory form, in place or not. -/
theorem delivers_alu (hop : keepsResult op = true) (hargs : inst.args = [a, b])
    {x y : BitVec (width (sizeOf ty.valueType))}
    (hx : readOperand frame a ty.valueType = some (valueOf _ x))
    (hy : readOperand frame b ty.valueType = some (valueOf _ y))
    (h : aluTemplate inst op ty.valueType = .ok pieces) :
    Delivers pieces s (base + dst) (valueOf _ (alu op x y).1) := by
  have ha : inst.args[0]? = some a := by rw [hargs]; rfl
  have hb : inst.args[1]? = some b := by rw [hargs]; rfl
  unfold aluTemplate at h
  obtain ⟨dst', hdst', h⟩ := bind_eq_ok.mp h
  obtain ⟨a', ha', h⟩ := bind_eq_ok.mp h
  obtain ⟨b', hb', h⟩ := bind_eq_ok.mp h
  cases hdst.symm.trans (dstSlot_eq_ok hdst')
  cases ha.symm.trans (argument_eq_ok ha')
  cases hb.symm.trans (argument_eq_ok hb')
  have hgeneral : ∀ pieces, (do
      return (← load inst ty.valueType .rax a) ++ (← aluOperand inst op (sizeOf ty.valueType) b) ++
        (← store inst ty.valueType .rax) : Code) = .ok pieces →
      Delivers pieces s (base + dst) (valueOf _ (alu op x y).1) := by
    intro pieces h
    obtain ⟨loaded, hload, h⟩ := bind_eq_ok.mp h
    obtain ⟨operated, hoperate, h⟩ := bind_eq_ok.mp h
    obtain ⟨stored, hstore, h⟩ := bind_eq_ok.mp h
    cases h
    exact delivers_aluGeneral hs hcount hin hdst hop ha hb hx hy hload hoperate hstore
  split at h
  · rename_i heq
    subst heq
    have hlt := hin.dst dst hdst
    split at h
    · rename_i value
      split at h
      · rename_i imm hfits
        obtain ⟨disp, hdisp, h⟩ := bind_eq_ok.mp h
        cases h
        refine ⟨{ s with flags := (alu op x y).2 }, .flags s _, .single fun hosts rip => ?_⟩
        have hconstant :=
          (constant_of_int32? hfits (sizeOf ty.valueType)).trans (low_constant hy rfl)
        rw [execute, hconstant]
        exact execute_aluMem hs hcount hlt hdisp hop hx y rip
      · exact hgeneral _ h
    · rename_i index
      obtain ⟨src, hsrc, h⟩ := bind_eq_ok.mp h
      obtain ⟨disp, hdisp, h⟩ := bind_eq_ok.mp h
      cases h
      have hload : load inst ty.valueType .rax (.slot index) =
          .ok [.instr (.load (sizeOf ty.valueType) .rax (frameMem src))] := by
        rw [← add_location ty src]
        exact bind_eq_ok.mpr ⟨src, hsrc, rfl⟩
      obtain ⟨w, hloaded, hw⟩ := leads_load hs hcount (hin.argument hb) hy hload
      have hbeside := Beside.rax s w
      refine ⟨_, hbeside.trans (.flags _ (alu op x y).2),
        hloaded.append (.single fun hosts rip => ?_)⟩
      have hrax : State.regPart { s.setReg .rax w with rip } (sizeOf ty.valueType) .rax = y :=
        regPart_of_ofBits (s := s.setReg .rax w) (by rw [State.reg_setReg_same]; exact hw)
      rw [execute, hrax]
      exact execute_aluMem (hbeside.sees hs) hcount hlt hdisp hop hx y rip
    · exact hgeneral _ h
  · exact hgeneral _ h

/-- Multiplication. -/
theorem delivers_mul (hargs : inst.args = [a, b])
    {x y : BitVec (width (sizeOf ty.valueType))}
    (hx : readOperand frame a ty.valueType = some (valueOf _ x))
    (hy : readOperand frame b ty.valueType = some (valueOf _ y))
    (h : mulTemplate inst ty.valueType = .ok pieces) :
    Delivers pieces s (base + dst) (valueOf _ (x * y)) := by
  have ha : inst.args[0]? = some a := by rw [hargs]; rfl
  have hb : inst.args[1]? = some b := by rw [hargs]; rfl
  unfold mulTemplate at h
  obtain ⟨a', ha', h⟩ := bind_eq_ok.mp h
  obtain ⟨b', hb', h⟩ := bind_eq_ok.mp h
  cases ha.symm.trans (argument_eq_ok ha')
  cases hb.symm.trans (argument_eq_ok hb')
  obtain ⟨left, hload, h⟩ := bind_eq_ok.mp h
  -- Either way the register is multiplied in a state that has the same `rax`.
  have hfinish : ∀ product stored, store inst ty.valueType .rax = .ok stored →
      (∀ t : State, t.Sees base count frame → ∃ t', Beside t t' ∧ t'.reg .rax = t.reg .rax ∧
        Leads product t (t'.imulReg (sizeOf ty.valueType) .rax y)) →
      Delivers (left ++ product ++ stored) s (base + dst) (valueOf _ (x * y)) := by
    intro product stored hstore hproduct
    refine delivers_of_compute hs hcount hin hdst ha hx hload hstore fun t ht hrax => ?_
    obtain ⟨t', hbeside, hkept, hleads⟩ := hproduct t ht
    obtain ⟨hbeside', hresult⟩ := imulReg_spec t' (sizeOf ty.valueType) y
    refine ⟨_, hbeside.trans hbeside', hleads, ?_⟩
    rw [ofBits_eq_valueOf, ← regPart_of_ofBits hrax]
    refine congrArg _ (hresult.trans ?_)
    rw [State.regPart, hkept, State.regPart]
  split at h
  · rename_i index
    obtain ⟨disp, hdisp, h⟩ := bind_eq_ok.mp h
    obtain ⟨product, hproduct, h⟩ := bind_eq_ok.mp h
    obtain ⟨stored, hstore, h⟩ := bind_eq_ok.mp h
    cases hproduct
    cases h
    refine hfinish _ _ hstore fun t ht => ⟨t, .refl t, rfl, .single fun hosts rip => ?_⟩
    rw [← add_location ty disp, execute,
      (sees_rip ht rip).loading hcount (hin.argument hb _ rfl) hdisp, low_slot hy]
    rfl
  · obtain ⟨loaded, hright, h⟩ := bind_eq_ok.mp h
    obtain ⟨product, hproduct, h⟩ := bind_eq_ok.mp h
    obtain ⟨stored, hstore, h⟩ := bind_eq_ok.mp h
    cases hproduct
    cases h
    refine hfinish _ _ hstore fun t ht => ?_
    obtain ⟨w, hloaded, hw⟩ := leads_load ht hcount (hin.argument hb) hy hright
    refine ⟨_, .rcx t w, t.reg_setReg_of_ne .rcx w (by decide),
      hloaded.append (.single fun hosts rip => ?_)⟩
    have hrcx : State.regPart { t.setReg .rcx w with rip } (sizeOf ty.valueType) .rcx = y :=
      regPart_of_ofBits (s := t.setReg .rcx w) (by rw [State.reg_setReg_same]; exact hw)
    rw [execute, hrcx]
    rfl

/-- Negation. -/
theorem delivers_neg (hargs : inst.args = [a])
    {x : BitVec (width (sizeOf ty.valueType))}
    (hx : readOperand frame a ty.valueType = some (valueOf _ x))
    (h : negTemplate inst ty.valueType = .ok pieces) :
    Delivers pieces s (base + dst) (valueOf _ (-x)) := by
  refine delivers_unary hs hcount hin hdst hargs hx h fun t ht hrax => ?_
  let result := negate (t.regPart (sizeOf ty.valueType) .rax)
  refine ⟨State.setPart { t with flags := result.2 } _ .rax result.1,
    (Beside.flags t _).trans (Beside.rax _ _), .single fun hosts rip => rfl, ?_⟩
  rw [State.setPart, State.reg_setReg_same, ofBits_eq_valueOf, low_setWidth]
  exact congrArg (fun part => valueOf ty.valueType (-part)) (regPart_of_ofBits hrax)

/-- Shifts. -/
theorem delivers_shift {op : ShiftOp} (hargs : inst.args = [a, b])
    {x : BitVec (width (sizeOf ty.valueType))} {c : BitVec 32}
    (hx : readOperand frame a ty.valueType = some (valueOf _ x))
    (hc : readOperand frame b .int = some (.int c))
    (h : shiftTemplate inst op ty.valueType = .ok pieces) : Delivers pieces s (base + dst)
      (valueOf _ (shift op {} x (c.toNat % width (sizeOf ty.valueType))).1) := by
  have ha : inst.args[0]? = some a := by rw [hargs]; rfl
  have hb : inst.args[1]? = some b := by rw [hargs]; rfl
  unfold shiftTemplate at h
  obtain ⟨a', ha', h⟩ := bind_eq_ok.mp h
  obtain ⟨b', hb', h⟩ := bind_eq_ok.mp h
  cases ha.symm.trans (argument_eq_ok ha')
  cases hb.symm.trans (argument_eq_ok hb')
  obtain ⟨distance, hdistance, h⟩ := bind_eq_ok.mp h
  obtain ⟨loaded, hload, h⟩ := bind_eq_ok.mp h
  obtain ⟨stored, hstore, h⟩ := bind_eq_ok.mp h
  cases h
  obtain ⟨w, hleads, hw⟩ := leads_load hs hcount (hin.argument hb) hc hdistance
  have hrcx := Beside.rcx s w
  obtain ⟨z, hloaded, hz⟩ := leads_load (hrcx.sees hs) hcount (hin.argument ha) hx hload
  let t := (s.setReg .rcx w).setReg .rax z
  have ht : (t.reg .rcx).toNat % width (sizeOf ty.valueType) =
      c.toNat % width (sizeOf ty.valueType) := by
    rw [State.reg_setReg_of_ne _ _ _ (by decide), State.reg_setReg_same, mod_width hw]
  have hrax : t.regPart (sizeOf ty.valueType) .rax = x :=
    regPart_of_ofBits (by rw [State.reg_setReg_same]; exact hz)
  let result := shift op t.flags x (c.toNat % width (sizeOf ty.valueType))
  let u := State.setPart { t with flags := result.2 } (sizeOf ty.valueType) .rax result.1
  have hu : Beside s u :=
    ((hrcx.trans (Beside.rax _ z)).trans (Beside.flags t _)).trans (Beside.rax _ _)
  have hshifted : Leads [.instr (.shift op (sizeOf ty.valueType) .rax)] t u :=
    .single fun hosts rip => by
      show Progress.next (State.setPart { t with flags := (shift op t.flags (t.regPart _ .rax)
        ((t.reg .rcx).toNat % width (sizeOf ty.valueType))).2, rip } _ .rax (shift op t.flags
        (t.regPart _ .rax) ((t.reg .rcx).toNat % width (sizeOf ty.valueType))).1) = _
      rw [ht, hrax]
      rfl
  have hstored := leads_store (hu.sees hs) hcount hdst (hin.dst dst hdst) hstore
  have hresult : u.reg .rax = result.1.setWidth 64 := State.reg_setReg_same _ _ _
  rw [hresult, ofBits_eq_valueOf, low_setWidth] at hstored
  exact ⟨u, hu, ((hleads.append hloaded).append hshifted).append hstored⟩

/-- Floating point negation. -/
theorem delivers_floatNeg {ty : Floating}
    (hargs : inst.args = [a]) {x : BitVec (width (sizeOf ty.valueType))}
    (hx : readOperand frame a ty.valueType = some (valueOf _ x))
    (h : floatNegTemplate inst ty = .ok pieces) :
    Delivers pieces s (base + dst) (valueOf _ (x ^^^ .intMin _)) := by
  refine delivers_unary hs hcount hin hdst hargs hx h fun t ht hrax => ?_
  obtain ⟨t', hbeside, hkept, hleads⟩ := leads_flip t ty
  obtain ⟨hbeside', -, hresult⟩ := aluReg_spec t' .xor (sizeOf ty.valueType) (.intMin _)
  refine ⟨_, hbeside.trans hbeside', hleads, ?_⟩
  rw [ofBits_eq_valueOf, ← regPart_of_ofBits hrax]
  refine congrArg _ ((hresult rfl).trans ?_)
  rw [State.regPart, hkept]
  rfl

/-- Conversion of an int to a long. -/
theorem delivers_widen {fresh : Nat} (hargs : inst.args = [a]) {x : BitVec 32}
    (hx : readOperand frame a .int = some (.int x))
    (h : convertTemplate inst fresh .widen = .ok pieces) :
    Delivers pieces s (base + dst) (.long (x.signExtend 64)) := by
  refine delivers_unary hs hcount hin hdst hargs hx h fun t ht hrax => ?_
  have hpart : t.regPart (sizeOf .int) .rax = x := regPart_of_ofBits hrax
  refine ⟨t.setReg .rax ((t.regPart .dword .rax).signExtend 64), Beside.rax t _,
    .single fun hosts rip => rfl, ?_⟩
  rw [State.reg_setReg_same]
  exact congrArg (fun part : BitVec 32 => Value.long (part.signExtend 64)) hpart

/-- Conversion of a long to an int. -/
theorem delivers_wrap {fresh : Nat} (hargs : inst.args = [a]) {x : BitVec 64}
    (hx : readOperand frame a .long = some (.long x))
    (h : convertTemplate inst fresh .wrap = .ok pieces) :
    Delivers pieces s (base + dst) (.int (x.setWidth 32)) := by
  have ha : inst.args[0]? = some a := by rw [hargs]; rfl
  obtain ⟨a', ha', h⟩ := bind_eq_ok.mp h
  cases ha.symm.trans (argument_eq_ok ha')
  obtain ⟨loaded, hload, h⟩ := bind_eq_ok.mp h
  obtain ⟨stored, hstore, h⟩ := bind_eq_ok.mp h
  cases h
  rw [← List.append_nil loaded]
  exact delivers_of_compute hs hcount hin hdst ha (readOperand_wrap hx) hload hstore
    fun t ht hrax => ⟨t, .refl t, ⟨[], rfl, .nil t⟩, hrax⟩

/-- Cutting an int down. -/
theorem delivers_narrow {fresh : Nat} {target : Narrow} (hargs : inst.args = [a])
    {x : BitVec 32} (hx : readOperand frame a .int = some (.int x))
    (h : convertTemplate inst fresh (.narrow target) = .ok pieces) :
    Delivers pieces s (base + dst) (.int (narrowInt target x)) := by
  refine delivers_unary hs hcount hin hdst hargs hx h fun t ht hrax => ?_
  refine ⟨_, Beside.rax t _, .single (execute_narrowInstr target t hrax), ?_⟩
  rw [State.reg_setReg_same]
  exact ofBits_bits (.int (narrowInt target x))

end

end SlotJit.Codegen

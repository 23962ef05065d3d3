import SlotJit.Proofs.Codegen.Arithmetic
import SlotJit.Proofs.Semantics.NativeMachine

/-!
# One instruction

What the template of an instruction does to a machine that mirrors the slot machine: its frame has
the content of the slot machine's frame, its flags show the order of the last compare as far as that
is known, and all else is as it was at the start.

The instructions here are the integer and control core: moves, integer arithmetic without division,
negations, conversions between integers, compares, jumps and returns.
-/

namespace SlotJit.Ir

/-- The kinds of the integer and control core. -/
def Kind.isCore : Kind → Bool
  | .move _ | .neg _ | .floatNeg _ | .compare _ | .jump | .jumpIf _ | .ret _ => true
  | .arith _ op =>
    match op with
    | .div | .rem => false
    | _ => true
  | .convert conversion =>
    match conversion with
    | .widen | .wrap | .narrow _ => true
    | _ => false
  | _ => false

end SlotJit.Ir

namespace SlotJit.Codegen

open SlotJit.Ir SlotJit.Machine SlotJit.Semantics SlotJit.Tables SlotJit.X64

variable {base count fresh : Nat} {frame : Frame} {s : State} {inst : Inst} {pieces : List Piece}
  {dst : Nat} {ty : ValueType} {v : Value} {args : List Operand} {src : Operand}
  {values : List Value}

/-! ### Operations -/

/-- One operand. -/
theorem exists_of_readOperands_one (h : readOperands frame args [ty] = some values) :
    ∃ a x, args = [a] ∧ values = [valueOf ty x] ∧ readOperand frame a ty = some (valueOf ty x) := by
  match args with
  | [] => cases h
  | a :: rest =>
      rw [readOperands] at h
      split at h
      · rename_i v vs hv hvs
        match rest with
        | [] =>
            cases hvs
            cases h
            obtain ⟨x, rfl⟩ := exists_valueOf (type_of_readOperand hv)
            exact ⟨a, x, rfl, rfl, hv⟩
        | b :: rest => cases hvs
      · cases h

/-- Two operands. -/
theorem exists_of_readOperands_two {ty' : ValueType}
    (h : readOperands frame args [ty, ty'] = some values) :
    ∃ a b x y, args = [a, b] ∧ values = [valueOf ty x, valueOf ty' y] ∧
      readOperand frame a ty = some (valueOf ty x) ∧
      readOperand frame b ty' = some (valueOf ty' y) := by
  match args with
  | [] => cases h
  | a :: rest =>
      rw [readOperands] at h
      split at h
      · rename_i v vs hv hvs
        cases h
        obtain ⟨b, y, rfl, rfl, hy⟩ := exists_of_readOperands_one hvs
        obtain ⟨x, rfl⟩ := exists_valueOf (type_of_readOperand hv)
        exact ⟨a, b, x, y, rfl, rfl, hv, hy⟩
      · cases h

/-- Arithmetic on two integers of a type. -/
theorem perform_arith {ty : Integral} (op : IntOp) (x y : BitVec (width (sizeOf ty.valueType)))
    (env : Environment) (history : List Event) :
    (Operation.arith ty op).perform env history [valueOf _ x, valueOf _ y] =
      Operation.arithReply (valueOf ty.valueType) op x y history := by
  cases ty <;> rfl

/-- A shift of an integer by an int. -/
theorem perform_shift {ty : Integral} (op : IntOp) (x : BitVec (width (sizeOf ty.valueType)))
    (c : BitVec 32) (env : Environment) (history : List Event) :
    (Operation.arith ty op).perform env history [valueOf _ x, .int c] =
      Operation.arithReply (valueOf ty.valueType) op x (c.setWidth _) history := by
  cases ty with
  | int =>
      show Operation.arithReply .int op x c history =
        Operation.arithReply .int op x (c.setWidth 32) history
      rw [BitVec.setWidth_eq]
  | long => rfl

/-- The distance of a shift is not changed by extending it. -/
theorem toNat_setWidth_mod (c : BitVec 32) (size : Size) :
    (c.setWidth (width size)).toNat % width size = c.toNat % width size := by
  have hc := c.isLt
  rw [BitVec.toNat_setWidth]
  cases size with
  | dword => exact Nat.mod_mod_of_dvd _ (by decide)
  | qword => exact congrArg (· % 64) (Nat.mod_eq_of_lt (Nat.lt_trans hc (by decide)))

/-- Arithmetic. -/
theorem delivers_arith (hs : s.Sees base count frame) (hcount : count < 2 ^ 31)
    (hin : InFrame count inst) {ty : Integral} {op : IntOp}
    (hcore : (Kind.arith ty op).isCore = true) {env : Environment}
    {history : List Event}
    (hvalues : readOperands frame inst.args (Operation.arith ty op).params = some values)
    (h : arithTemplate inst ty.valueType fresh op = .ok pieces) :
    ∃ v, (Operation.arith ty op).perform env history values = .done (some v) history ∧
      ∀ dst, inst.dst = some (.slot dst) → Delivers pieces s (base + dst) v := by
  by_cases hshift : op.isShift = true
  · rw [Operation.params, if_pos hshift] at hvalues
    obtain ⟨a, b, x, c, hargs, rfl, hx, hc⟩ := exists_of_readOperands_two hvalues
    have hperform := perform_shift op x c env history
    have hmod := toNat_setWidth_mod c (sizeOf ty.valueType)
    cases op with
    | shl | shr | ushr =>
        refine ⟨_, hperform, fun dst hdst => ?_⟩
        rw [hmod]
        exact delivers_shift hs hcount hin hdst hargs hx hc h
    | add | sub | mul | div | rem | and | or | xor => cases hshift
  · rw [Operation.params, if_neg hshift] at hvalues
    obtain ⟨a, b, x, y, hargs, rfl, hx, hy⟩ := exists_of_readOperands_two hvalues
    have hperform := perform_arith op x y env history
    cases op with
    | shl | shr | ushr => exact absurd rfl hshift
    | div | rem => cases hcore
    | mul => exact ⟨_, hperform, fun dst hdst => delivers_mul hs hcount hin hdst hargs hx hy h⟩
    | add =>
        refine ⟨_, hperform, fun dst hdst => ?_⟩
        rw [← sum_eq]
        exact delivers_alu hs hcount hin hdst rfl hargs hx hy h
    | sub =>
        refine ⟨_, hperform, fun dst hdst => ?_⟩
        rw [← difference_eq]
        exact delivers_alu hs hcount hin hdst rfl hargs hx hy h
    | and | or | xor =>
        exact ⟨_, hperform, fun dst hdst => delivers_alu hs hcount hin hdst rfl hargs hx hy h⟩

/-- An operation of the core. -/
theorem delivers_operation (hs : s.Sees base count frame) (hcount : count < 2 ^ 31)
    (hin : InFrame count inst) (hcore : inst.kind.isCore = true) {context : Context}
    {op : Operation} (hop : operation? context inst.kind inst.args = some (op, args))
    (hvalues : readOperands frame args op.params = some values) {site : Site}
    (h : template site fresh inst = .ok pieces) (env : Environment) (history : List Event) :
    ∃ v, op.perform env history values = .done (some v) history ∧
      ∀ dst, inst.dst = some (.slot dst) → Delivers pieces s (base + dst) v := by
  unfold template at h
  cases hkind : inst.kind with
  | move | compare | jump | jumpIf | ret =>
      rw [hkind] at hop
      cases hop
  | floatArith | callStatic | callNative | newIntArray | arrayLen | intArrayGet | intArraySet =>
      rw [hkind] at hcore
      cases hcore
  | arith ty op =>
      rw [hkind] at hop h hcore
      cases hop
      exact delivers_arith hs hcount hin hcore hvalues h
  | neg ty =>
      rw [hkind] at hop h
      cases hop
      obtain ⟨a, x, hargs, rfl, hx⟩ := exists_of_readOperands_one hvalues
      refine ⟨valueOf _ (-x), ?_, fun dst hdst => delivers_neg hs hcount hin hdst hargs hx h⟩
      cases ty <;> rfl
  | floatNeg ty =>
      rw [hkind] at hop h
      cases hop
      obtain ⟨a, x, hargs, rfl, hx⟩ := exists_of_readOperands_one hvalues
      refine ⟨valueOf _ (x ^^^ .intMin _), ?_,
        fun dst hdst => delivers_floatNeg hs hcount hin hdst hargs hx h⟩
      cases ty <;> rfl
  | convert conversion =>
      rw [hkind] at hop h hcore
      cases hop
      obtain ⟨a, x, hargs, rfl, hx⟩ := exists_of_readOperands_one hvalues
      cases conversion with
      | widen => exact ⟨_, rfl, fun dst hdst => delivers_widen hs hcount hin hdst hargs hx h⟩
      | wrap => exact ⟨_, rfl, fun dst hdst => delivers_wrap hs hcount hin hdst hargs hx h⟩
      | narrow target =>
          exact ⟨_, rfl, fun dst hdst => delivers_narrow hs hcount hin hdst hargs hx h⟩
      | toFloating | toIntegral | resize => cases hcore

/-! ### Moves -/

/-- Storing what a slot holds changes nothing. -/
theorem put_get (hs : s.Sees base count frame) {index : Nat} (hin : index < count)
    (ty : ValueType) : s.put (base + index) (frame.get ty index) = s := by
  have hslots : s.memory.slots.modify (base + index) (frame.get ty index).store =
      s.memory.slots := by
    refine Array.ext_getElem? fun i => ?_
    rw [Array.getElem?_modify]
    split
    · rename_i heq
      rw [← heq, hs.slots index hin, Option.map_some, Frame.get, Value.store_ofSlot]
    · rfl
  rw [State.put, hslots]

/-- The low half of a word that was extended. -/
theorem setWidth_ofInt32 (n : Int32) : (Word.ofInt32 n).setWidth 32 = n.toBitVec := by
  have h := setWidth_toBitVec n.toInt64
  rwa [Int32.toInt32_toInt64] at h

/-- A constant that is copied to a slot. -/
theorem leads_copyConstant (hs : s.Sees base count frame) (hcount : count < 2 ^ 31)
    (hdst : dst < count) (hread : readOperand frame src ty = some v) {bits : Int64}
    (hbits : constBits? src = some bits) {disp : Int32}
    (hdisp : slotDisp dst = .ok disp) :
    ∃ t, Beside s t ∧ t.flags = s.flags ∧ Leads
      (match sizeOf ty, int32? bits with
        | .dword, _ => [.instr (.storeImm .dword (frameMem (disp + (location ty).2)) bits.toInt32)]
        | .qword, some imm => [.instr (.storeImm .qword (frameMem (disp + (location ty).2)) imm)]
        | .qword, none => [.instr (.movImm64 .rax bits),
            .instr (.store .qword (frameMem (disp + (location ty).2)) .rax)])
      s (t.put (base + dst) v) := by
  have hvalue := ofBits_constant hread hbits
  -- A constant of 32 bits is stored as it is, if it stands for the same value.
  have himm : ∀ imm, Value.ofBits ty (.ofInt32 imm) = v → Leads
      [.instr (.storeImm (sizeOf ty) (frameMem (disp + (location ty).2)) imm)] s
      (s.put (base + dst) v) := by
    intro imm hv
    rw [← hv]
    exact .single fun hosts rip => (sees_rip hs rip).storing hcount hdst hdisp ty _ _
  cases ty with
  | int | float =>
      refine ⟨s, .refl s, rfl, himm bits.toInt32 ?_⟩
      rw [← hvalue, Value.ofBits, Value.ofBits, setWidth_ofInt32, setWidth_toBitVec]
  | long | double | ref =>
      cases hfits : int32? bits with
      | some imm =>
          refine ⟨s, .refl s, rfl, himm imm ?_⟩
          rw [← hvalue, ofInt32_of_int32? hfits]
      | none =>
          refine ⟨_, .rax s bits.toBitVec, rfl, .cons (t := s.setReg .rax bits.toBitVec)
            (fun hosts rip => rfl) (.single fun hosts rip => ?_)⟩
          have hsees := sees_rip ((Beside.rax s bits.toBitVec).sees hs) rip
          refine (hsees.storing hcount hdst hdisp _ _ _).trans ?_
          rw [← hvalue]
          exact congrArg (fun w => Progress.next
            { (s.setReg .rax bits.toBitVec).put (base + dst) (Value.ofBits _ w) with rip })
            (s.reg_setReg_same .rax bits.toBitVec)

/-- A value is copied to a slot by moves, which keep the flags. -/
theorem leads_copyTo (hs : s.Sees base count frame) (hcount : count < 2 ^ 31) (hdst : dst < count)
    (hsrc : ∀ index, src = .slot index → index < count) (hread : readOperand frame src ty = some v)
    {disp : Int32} (hdisp : slotDisp dst = .ok disp) (h : copyTo inst ty src disp = .ok pieces) :
    ∃ t, Beside s t ∧ t.flags = s.flags ∧ Leads pieces s (t.put (base + dst) v) := by
  by_cases hslot : ∃ index, src = .slot index
  · obtain ⟨index, rfl⟩ := hslot
    obtain ⟨srcDisp, hsrcDisp, h⟩ := bind_eq_ok.mp h
    cases h
    have hload : load inst ty .rax (.slot index) =
        .ok [.instr (.load (sizeOf ty) .rax (frameMem (srcDisp + (location ty).2)))] :=
      bind_eq_ok.mpr ⟨srcDisp, hsrcDisp, rfl⟩
    obtain ⟨w, hloaded, hw⟩ := leads_load hs hcount hsrc hread hload
    refine ⟨_, .rax s w, rfl, hloaded.append (.single fun hosts rip => ?_)⟩
    have hsees := sees_rip ((Beside.rax s w).sees hs) rip
    refine (hsees.storing hcount hdst hdisp ty _ _).trans ?_
    rw [← hw]
    exact congrArg (fun w' => Progress.next
      { (s.setReg .rax w).put (base + dst) (Value.ofBits ty w') with rip })
      (s.reg_setReg_same .rax w)
  · have h' : (do
        let bits ← constant inst src
        match sizeOf ty, int32? bits with
        | .dword, _ =>
          return [.instr (.storeImm .dword (frameMem (disp + (location ty).2)) bits.toInt32)]
        | .qword, some imm =>
          return [.instr (.storeImm .qword (frameMem (disp + (location ty).2)) imm)]
        | .qword, none =>
          return [.instr (.movImm64 .rax bits),
            .instr (.store .qword (frameMem (disp + (location ty).2)) .rax)] : Code) =
            .ok pieces := by
      cases src with
      | slot index => exact absurd ⟨index, rfl⟩ hslot
      | branch | flags | int | float | double | symbol => exact h
    obtain ⟨bits, hbits, h'⟩ := bind_eq_ok.mp h'
    have hleads := leads_copyConstant hs hcount hdst hread (constant_eq_ok hbits) hdisp
    cases hsize : sizeOf ty <;> cases hfits : int32? bits <;>
    · simp only [hsize, hfits] at h' hleads
      cases h'
      exact hleads

/-- A move. -/
theorem leads_move (hs : s.Sees base count frame) (hcount : count < 2 ^ 31)
    (hin : InFrame count inst) (hdst : inst.dst = some (.slot dst)) (hargs : inst.args = [src])
    (hread : readOperand frame src ty = some v) (h : moveTemplate inst ty = .ok pieces) :
    ∃ t, Beside s t ∧ t.flags = s.flags ∧ Leads pieces s (t.put (base + dst) v) := by
  have hsrc : inst.args[0]? = some src := by rw [hargs]; rfl
  obtain ⟨dst', hdst', h⟩ := bind_eq_ok.mp h
  obtain ⟨src', hsrc', h⟩ := bind_eq_ok.mp h
  cases hdst.symm.trans (dstSlot_eq_ok hdst')
  cases hsrc.symm.trans (argument_eq_ok hsrc')
  split at h
  · rename_i heq
    subst heq
    cases h
    cases hread
    refine ⟨s, .refl s, rfl, ?_⟩
    rw [put_get hs (hin.dst dst hdst)]
    exact ⟨[], rfl, .nil s⟩
  · obtain ⟨disp, hdisp, h⟩ := bind_eq_ok.mp h
    exact leads_copyTo hs hcount (hin.dst dst hdst) (hin.argument hsrc) hread hdisp h

/-! ### Compares -/

/-- A compare leaves the flags of the difference. -/
theorem leads_compare (hs : s.Sees base count frame) (hcount : count < 2 ^ 31)
    (hin : InFrame count inst) {a b : Operand} (hargs : inst.args = [a, b])
    {x y : BitVec (width (sizeOf ty))}
    (hx : readOperand frame a ty = some (valueOf ty x))
    (hy : readOperand frame b ty = some (valueOf ty y)) (h : compareTemplate inst ty = .ok pieces) :
    ∃ t, Beside s t ∧ t.flags = (alu .cmp x y).2 ∧ Leads pieces s t := by
  have ha : inst.args[0]? = some a := by rw [hargs]; rfl
  have hb : inst.args[1]? = some b := by rw [hargs]; rfl
  obtain ⟨a', ha', h⟩ := bind_eq_ok.mp h
  obtain ⟨b', hb', h⟩ := bind_eq_ok.mp h
  cases ha.symm.trans (argument_eq_ok ha')
  cases hb.symm.trans (argument_eq_ok hb')
  obtain ⟨left, hload, h⟩ := bind_eq_ok.mp h
  obtain ⟨w, hloaded, hw⟩ := leads_load hs hcount (hin.argument ha) hx hload
  have hbeside := Beside.rax s w
  have hrax : Word.low (sizeOf ty) ((s.setReg .rax w).reg .rax) = x :=
    regPart_of_ofBits (s := s.setReg .rax w) (by rw [State.reg_setReg_same]; exact hw)
  -- Either way the compare is made in a state that has the same `rax`.
  have hfinish :
      ∀ compared, (∃ t, Beside (s.setReg .rax w) t ∧ t.reg .rax = (s.setReg .rax w).reg .rax ∧
      Leads compared (s.setReg .rax w) (t.aluReg .cmp (sizeOf ty) .rax y)) →
      ∃ t, Beside s t ∧ t.flags = (alu .cmp x y).2 ∧ Leads (left ++ compared) s t := by
    rintro compared ⟨t, hbeside', hkept, hleads⟩
    obtain ⟨hbeside'', hflags, -⟩ := aluReg_spec t .cmp (sizeOf ty) y
    refine ⟨_, (hbeside.trans hbeside').trans hbeside'', ?_, hloaded.append hleads⟩
    rw [hflags, State.regPart, hkept, hrax]
  by_cases hslot : ∃ index, b = .slot index
  · obtain ⟨index, rfl⟩ := hslot
    obtain ⟨disp, hdisp, h⟩ := bind_eq_ok.mp h
    cases h
    have hleads := leads_aluLoad (hbeside.sees hs) hcount (hin.argument hb _ rfl) hdisp .cmp ty
    rw [low_slot hy] at hleads
    exact hfinish _ ⟨_, .refl _, rfl, hleads⟩
  · obtain ⟨bits, hbits, hpieces⟩ : ∃ bits, constant inst b = .ok bits ∧
        ((∃ imm, int32? bits = some imm ∧
            pieces = left ++ [.instr (.aluImm .cmp (sizeOf ty) .rax imm)]) ∨
          int32? bits = none ∧ pieces = left ++ [.instr (.movImm64 .rcx bits),
            .instr (.alu .cmp (sizeOf ty) .rax .rcx)]) := by
      cases b with
      | slot index => exact absurd ⟨index, rfl⟩ hslot
      | branch | flags | int | float | double | symbol =>
          obtain ⟨bits, hbits, h⟩ := bind_eq_ok.mp h
          refine ⟨bits, hbits, ?_⟩
          split at h
          · rename_i imm hfits
            cases h
            exact .inl ⟨imm, hfits, rfl⟩
          · rename_i hfits
            cases h
            exact .inr ⟨hfits, rfl⟩
    have hleads := leads_aluConstant (s.setReg .rax w) .cmp (sizeOf ty) bits
    rw [low_constant hy (constant_eq_ok hbits)] at hleads
    obtain ⟨imm, hfits, rfl⟩ | ⟨hfits, rfl⟩ := hpieces <;>
    · simp only [hfits] at hleads
      exact hfinish _ hleads

/-- The flags show how the values of a compare are ordered. -/
def FlagsShow (f : Flags) (order : Ordering) : Prop :=
  ∀ condition, f.holds (condOf condition) = conditionHolds condition order

/-- The flags of a difference tell equality and order. -/
theorem flags_cmp {size : Size} (x y : BitVec (width size)) :
    (alu .cmp x y).2.zero = decide (x.toInt = y.toInt) ∧
      ((alu .cmp x y).2.sign != (alu .cmp x y).2.overflow) = decide (x.toInt < y.toInt) := by
  have hx := x.isLt
  have hy := y.isLt
  simp only [alu, resultFlags, difference_eq]
  constructor
  · rw [Bool.eq_iff_iff, beq_iff_eq, decide_eq_true_iff, BitVec.toInt_inj, BitVec.toNat_sub,
      ← BitVec.toNat_inj]
    cases size <;> simp only [width] at * <;> omega
  · rw [Bool.eq_iff_iff]
    cases size <;>
    · simp only [width] at *
      simp only [BitVec.msb_eq_decide, BitVec.toNat_sub, BitVec.toInt_eq_toNat_cond]
      grind

/-- After a compare the flags show the order. -/
theorem flagsShow_cmp {size : Size} (x y : BitVec (width size)) :
    FlagsShow (alu .cmp x y).2 (compareSigned x y) := by
  obtain ⟨hzero, hless⟩ := flags_cmp x y
  have hnotLess : ((alu .cmp x y).2.sign == (alu .cmp x y).2.overflow) =
      !decide (x.toInt < y.toInt) := by
    rw [← hless, bne, Bool.not_not]
  have horder : compareSigned x y =
      if x.toInt < y.toInt then .lt else if x.toInt = y.toInt then .eq else .gt := rfl
  intro condition
  rw [horder]
  by_cases hlt : x.toInt < y.toInt
  · have hne := Int.ne_of_lt hlt
    cases condition <;> simp [condOf, Flags.holds, conditionHolds, hzero, hless, hnotLess, hlt, hne]
  · by_cases heq : x.toInt = y.toInt <;> cases condition <;>
      simp [condOf, Flags.holds, conditionHolds, hzero, hless, hnotLess, hlt, heq]

/-- How integers or references of a type compare. -/
theorem compareValues_valueOf (ty : Comparand) (x y : BitVec (width (sizeOf ty.valueType))) :
    compareValues (valueOf ty.valueType x) (valueOf ty.valueType y) = some (compareSigned x y) := by
  cases ty <;> rfl

/-! ### Machines that mirror each other -/

/-- All is as it was outside of the frame and the scratch registers. -/
structure Kept (base count : Nat) (s t : State) : Prop where
  regs : ∀ r, r ≠ .rax → r ≠ .rcx → t.reg r = s.reg r
  xmms : t.xmms = s.xmms
  lines : t.lines = s.lines
  heap : t.memory.heap = s.memory.heap
  stack : t.memory.stack = s.memory.stack
  size : t.memory.slots.size = s.memory.slots.size
  slots : ∀ j, j < base ∨ base + count ≤ j → t.memory.slots[j]? = s.memory.slots[j]?

namespace Kept

variable {t u : State}

theorem trans (h : Kept base count s t) (h' : Kept base count t u) : Kept base count s u :=
  ⟨fun r hrax hrcx => (h'.regs r hrax hrcx).trans (h.regs r hrax hrcx), h'.xmms.trans h.xmms,
    h'.lines.trans h.lines, h'.heap.trans h.heap, h'.stack.trans h.stack, h'.size.trans h.size,
    fun j hj => (h'.slots j hj).trans (h.slots j hj)⟩

theorem of_beside (h : Beside s t) : Kept base count s t :=
  ⟨h.regs, h.xmms, h.lines, by rw [h.memory], by rw [h.memory], by rw [h.memory],
    fun j _ => by rw [h.memory]⟩

/-- A store to the frame. -/
theorem put (t : State) {index : Nat} (hindex : index < count) (v : Value) :
    Kept base count t (t.put (base + index) v) := by
  refine ⟨fun _ _ _ => rfl, rfl, rfl, rfl, rfl, by simp [State.put], fun j hj => ?_⟩
  have hne : base + index ≠ j := by omega
  simp [State.put, Array.getElem?_modify, hne]

end Kept

/-- The frame has the content that the slot machine's frame has, and the flags show the order of the
last compare, if it is known. -/
structure Mirrors (base count : Nat) (core : Core) (s : State) : Prop where
  sees : s.Sees base count core.frame
  flags : ∀ order, core.flags = some order → FlagsShow s.flags order

/-- What the pieces of an instruction do, by what the instruction leads to. -/
def Carries (base count : Nat) (pieces : List Piece) (s : State) : Exit Nat → Prop
  | .fall core =>
    (∃ t, Leads pieces s t ∧ Kept base count s t ∧ Mirrors base count core t) ∨
      ∃ cond label, pieces = [.jump (some cond) label] ∧ s.flags.holds cond = false ∧
        Mirrors base count core s
  | .goto target core =>
    ∃ cond, pieces = [.jump cond target] ∧ cond.all s.flags.holds = true ∧ Mirrors base count core s
  | .halt outcome core =>
    ∃ value loaded t, outcome = .returned value ∧ pieces = loaded ++ [.instr returnJump] ∧
      Leads loaded s t ∧ Kept base count s t ∧ Mirrors base count core t ∧
      ∀ v, value = some v → Value.ofBits v.type (t.reg .rax) = v
  | .stuck => True

section

variable {core : Core} (hm : Mirrors base count core s)

include hm

/-- A result that is stored. -/
theorem carries_of_delivers (hin : dst < count) (history : List Event)
    (h : Delivers pieces s (base + dst) v) :
    Carries base count pieces s (.fall ⟨core.frame.set dst v, none, history⟩) := by
  obtain ⟨t, hbeside, hleads⟩ := h
  exact .inl ⟨_, hleads, (Kept.of_beside hbeside).trans (.put t hin v),
    (hbeside.sees hm.sees).put hin v, fun order horder => nomatch horder⟩

/-- A return without a value. -/
theorem carries_retVoid (h : returnTemplate inst none = .ok pieces) :
    Carries base count pieces s (.halt (.returned none) core) := by
  cases h
  exact ⟨none, [], s, rfl, rfl, ⟨[], rfl, .nil s⟩, .of_beside (.refl s), hm, fun v hv => nomatch hv⟩

/-- A jump. -/
theorem carries_branch {condition : Option Condition} {target : Int}
    {rest : List Operand} (hargs : inst.args = .branch target :: rest)
    (h : jumpTemplate inst condition = .ok pieces) :
    Carries base count pieces s (core.branch condition target.toNat) := by
  have hlabel : inst.args.head?.bind branchLabel? =
      if 0 ≤ target ∧ target < 2 ^ 32 then some target.toNat else none := by
    rw [hargs]
    rfl
  unfold jumpTemplate at h
  rw [hlabel] at h
  split at h
  · cases h
  · rename_i label heq
    split at heq
    · cases heq
      cases condition with
      | none =>
          cases h
          exact ⟨none, rfl, rfl, hm⟩
      | some condition =>
          simp only at h
          split at h
          · cases h
            unfold Core.branch
            simp only
            split
            · rename_i order horder
              have hholds := hm.flags order horder condition
              split
              · rename_i htrue
                exact ⟨_, rfl, hholds.trans htrue, hm⟩
              · rename_i hfalse
                exact .inr ⟨_, _, rfl, hholds.trans (Bool.eq_false_iff.mpr hfalse), hm⟩
            · trivial
          · cases h
    · cases heq

variable (hcount : count < 2 ^ 31) (hin : InFrame count inst)

include hcount hin

/-- An operation. -/
theorem carries_operate (hcore : inst.kind.isCore = true) {context : Context} {op : Operation}
    (hop : operation? context inst.kind inst.args = some (op, args)) {site : Site}
    (h : template site fresh inst = .ok pieces) (env : Environment) :
    Carries base count pieces s (core.operate env op args inst.dst) := by
  unfold Core.operate
  split
  · trivial
  · rename_i values hvalues
    obtain ⟨v, hperform, hdelivers⟩ :=
      delivers_operation hm.sees hcount hin hcore hop hvalues h env core.history
    rw [hperform]
    cases hdst : inst.dst with
    | none => trivial
    | some operand =>
        cases operand with
        | slot dst =>
            exact carries_of_delivers hm (hin.dst dst hdst) core.history (hdelivers dst hdst)
        | branch | flags | int | float | double | symbol => trivial

/-- A move. -/
theorem carries_move (hargs : inst.args = [src]) (hread : readOperand core.frame src ty = some v)
    (h : moveTemplate inst ty = .ok pieces) {core' : Core}
    (hdeliver : core.deliver (some v) inst.dst = some core') :
    Carries base count pieces s (.fall core') := by
  cases hdst : inst.dst with
  | none =>
      rw [hdst] at hdeliver
      cases hdeliver
  | some operand =>
      rw [hdst] at hdeliver
      cases operand with
      | branch | flags | int | float | double | symbol => cases hdeliver
      | slot dst =>
          cases hdeliver
          obtain ⟨t, hbeside, hflags, hleads⟩ := leads_move hm.sees hcount hin hdst hargs hread h
          refine .inl ⟨_, hleads, (Kept.of_beside hbeside).trans (.put t (hin.dst dst hdst) v),
            (hbeside.sees hm.sees).put (hin.dst dst hdst) v, fun order horder => ?_⟩
          rw [State.flags_put, hflags]
          exact hm.flags order horder

/-- A compare. -/
theorem carries_compare {ty : Comparand} {a b : Operand} (hargs : inst.args = [a, b]) {u : Value}
    (hu : readOperand core.frame a ty.valueType = some u)
    (hv : readOperand core.frame b ty.valueType = some v)
    (h : compareTemplate inst ty.valueType = .ok pieces) {order : Ordering}
    (horder : compareValues u v = some order) :
    Carries base count pieces s (.fall { core with flags := some order }) := by
  obtain ⟨x, rfl⟩ := exists_valueOf (type_of_readOperand hu)
  obtain ⟨y, rfl⟩ := exists_valueOf (type_of_readOperand hv)
  rw [compareValues_valueOf] at horder
  cases horder
  obtain ⟨t, hbeside, hflags, hleads⟩ := leads_compare hm.sees hcount hin hargs hu hv h
  refine .inl ⟨t, hleads, .of_beside hbeside, hbeside.sees hm.sees, fun order horder => ?_⟩
  cases horder
  rw [hflags]
  exact flagsShow_cmp x y

/-- A return with a value. -/
theorem carries_ret {a : Operand} (hargs : inst.args = [a])
    (hread : readOperand core.frame a ty = some v)
    (h : returnTemplate inst (some ty) = .ok pieces) :
    Carries base count pieces s (.halt (.returned (some v)) core) := by
  have ha : inst.args[0]? = some a := by rw [hargs]; rfl
  simp only [returnTemplate] at h
  obtain ⟨a', ha', h⟩ := bind_eq_ok.mp h
  obtain ⟨loaded, hload, h⟩ := bind_eq_ok.mp h
  cases h
  cases ha.symm.trans (argument_eq_ok ha')
  obtain ⟨w, hleads, hw⟩ := leads_load hm.sees hcount (hin.argument ha) hread hload
  refine ⟨some v, loaded, _, rfl, rfl, hleads, .of_beside (.rax s w),
    ⟨(Beside.rax s w).sees hm.sees, hm.flags⟩, fun v' hv' => ?_⟩
  cases hv'
  rw [State.reg_setReg_same, type_of_readOperand hread]
  exact hw

/-- The template of an instruction of the core carries the instruction out. -/
theorem carries_execute (hcore : inst.kind.isCore = true) {site : Site}
    (h : template site fresh inst = .ok pieces) (context : Context) (env : Environment) :
    Carries base count pieces s (SlotMachine.execute context env core inst) := by
  unfold SlotMachine.execute
  split
  · rename_i target hkind hargs
    rw [template, hkind] at h
    exact carries_branch hm hargs h
  · rename_i condition target hkind hargs
    rw [template, hkind] at h
    exact carries_branch hm hargs h
  · unfold Core.execute
    split
    · rename_i ty src hkind hargs
      rw [template, hkind] at h
      split
      · rename_i v hread
        split
        · rename_i core' hdeliver
          exact carries_move hm hcount hin hargs hread h hdeliver
        · trivial
      · trivial
    · rename_i ty a b hkind hdst hargs
      rw [template, hkind] at h
      split
      · rename_i u v hu hv
        split
        · rename_i order horder
          exact carries_compare hm hcount hin hargs hu hv h horder
        · trivial
      · trivial
    · rename_i hkind hdst hargs
      rw [template, hkind] at h
      exact carries_retVoid hm h
    · rename_i ty a hkind hdst hargs
      rw [template, hkind] at h
      split
      · rename_i v hread
        exact carries_ret hm hcount hin hargs hread h
      · trivial
    · split
      · rename_i op args hop
        exact carries_operate hm hcount hin hcore hop h env
      · trivial

end

end SlotJit.Codegen

import SlotJit.Proofs.Codegen.Division
import SlotJit.Proofs.Ieee.Truncation

/-!
# Conversion to integers

The processor rounds a floating point number towards zero, and gives the least integer for whatever
has no integer in range. That integer is also a result of its own, so the code of a conversion looks
at the operand whenever it gets it: a NaN is replaced by zero, a number without a minus sign by the
greatest integer, and for all others the least integer is right.

## Main results

* `toInt_truncated`, `saturated_of_least`: what the processor's answer tells.
* `reaches_saturated`: the paths of the code.
* `conversion_saturates`: what the code of a conversion does.
-/

namespace SlotJit.Codegen

open SlotJit.CodeMemory SlotJit.Ieee SlotJit.Ir SlotJit.Machine SlotJit.Semantics SlotJit.Tables
  SlotJit.X64

/-! ### The processor's conversion -/

section Truncated

variable {f : Format} {w bits : Nat}

/-- An answer that is not the least integer is the right one. -/
theorem toInt_truncated (hw : 0 < w) (h : truncated f w bits ≠ .intMin w) :
    (truncated f w bits).toInt = (f.decode bits).saturated w := by
  cases hdatum : f.decode bits with
  | nan | infinity => exact absurd (by rw [truncated, Format.truncate?, hdatum]) h
  | finite s m e =>
      rw [truncated, truncate?_of_finite hdatum] at h ⊢
      simp only at h ⊢
      split at h
      · rename_i hrange
        have hlow := BitVec.toInt_intMin_of_pos hw
        have hhigh : (BitVec.intMax w).toInt = _ := BitVec.toInt_intMax
        rw [if_pos hrange, BitVec.toInt_ofInt_eq_self hw (by omega) (by omega), Datum.saturated]
        rw [if_neg (not_lt.mpr hrange.1), if_neg (not_lt.mpr hrange.2)]
      · exact absurd rfl h

/-- Where the answer is the least integer, the number is at an end of the range or beyond it. -/
theorem truncation_of_least (hw : 0 < w) {s : Bool} {m : Nat} {e : Int}
    (hdatum : f.decode bits = .finite s m e) (h : truncated f w bits = .intMin w) :
    truncation (dyadic s m e) ≤ (BitVec.intMin w).toInt ∨
      (BitVec.intMax w).toInt < truncation (dyadic s m e) := by
  have hlow := BitVec.toInt_intMin_of_pos hw
  have hhigh : (BitVec.intMax w).toInt = _ := BitVec.toInt_intMax
  rw [truncated, truncate?_of_finite hdatum] at h
  simp only at h
  split at h
  · refine .inl (Int.le_of_eq ?_)
    rw [← h, BitVec.toInt_ofInt_eq_self hw (by omega) (by omega)]
  · omega

/-- Where the answer is the least integer, the right one depends on the operand's sign. -/
theorem saturated_of_least (hw : 0 < w) (h : truncated f w bits = .intMin w)
    (hnan : f.isNaN bits = false) : (f.decode bits).saturated w =
      if (f.decode bits).negative then (BitVec.intMin w).toInt else (BitVec.intMax w).toInt := by
  cases hdatum : f.decode bits with
  | nan s p =>
      rw [Format.isNaN, hdatum] at hnan
      cases hnan
  | infinity s => rfl
  | finite s m e => exact saturated_of_ends hw (truncation_of_least hw hdatum h)

end Truncated

/-! ### Operands in vector registers -/

/-- What a bit pattern of a floating point type stands for. -/
def datumOf (ty : Floating) (x : BitVec (width (sizeOf ty.valueType))) : Datum :=
  (formatOf (precisionOf ty)).decode x.toNat

/-- The pattern of a type in a vector register. -/
def xmmPart (s : State) (ty : Floating) (xmm : Xmm) : BitVec (width (sizeOf ty.valueType)) :=
  Word.low (sizeOf ty.valueType) (s.xmm xmm)

/-- The scalar of a register is its low part. -/
theorem scalar_eq (s : State) (ty : Floating) (xmm : Xmm) :
    s.scalar (precisionOf ty) xmm = (xmmPart s ty xmm).toNat := by
  cases ty with
  | float =>
      show (Word.lowHalf (s.xmm xmm)).toNat = (Word.low .dword (s.xmm xmm)).toNat
      rw [Word.lowHalf_eq, Word.low_eq]
      exact BitVec.toNat_setWidth_of_le (by decide)
  | double => rfl

/-- The top bit of a pattern is its sign. -/
theorem msb_eq_negative (ty : Floating) (x : BitVec (width (sizeOf ty.valueType))) :
    x.msb = (datumOf ty x).negative := by
  have hlt := x.isLt
  rw [datumOf, negative_decode, BitVec.msb_eq_decide, decide_eq_decide]
  cases ty with
  | float =>
      show 2 ^ 31 ≤ x.toNat ↔ x.toNat / 2 ^ 31 % 2 = 1
      have hlt' : x.toNat < 2 ^ 32 := hlt
      omega
  | double =>
      show 2 ^ 63 ≤ x.toNat ↔ x.toNat / 2 ^ 63 % 2 = 1
      have hlt' : x.toNat < 2 ^ 64 := hlt
      omega

/-- Loading an operand leaves its bits in the vector register. -/
theorem leads_loadXmm {base count : Nat} {frame : Frame} {s : State} {inst : Inst} {ty : Floating}
    {xmm : Xmm} {operand : Operand} {pieces : List Piece} (hs : s.Sees base count frame)
    (hcount : count < 2 ^ 31) (hin : ∀ index, operand = .slot index → index < count)
    (h : loadXmm inst ty xmm operand = .ok pieces) :
    ∃ t, Aside s t ∧ operandBits? frame ty.valueType operand = some (xmmPart t ty xmm) ∧
      Leads pieces s t ∧ Compact 2 pieces := by
  by_cases hslot : ∃ index, operand = .slot index
  · obtain ⟨index, rfl⟩ := hslot
    obtain ⟨disp, hdisp, h⟩ := bind_eq_ok.mp h
    cases h
    let bits := (frame.get ty.valueType index).bits
    have hpart : xmmPart (s.setXmm xmm bits) ty xmm = Word.low _ bits :=
      congrArg (Word.low _) (State.xmm_setXmm_same s bits xmm)
    refine ⟨s.setXmm xmm bits, .xmm s xmm bits, by rw [hpart]; rfl, .single fun hosts rip => ?_,
      (compact_instr _).sized, Nat.le_succ 1⟩
    have hload := (sees_rip hs rip).loading hcount (hin index rfl) hdisp ty.valueType
      fun t value => .next (t.setXmm xmm value)
    have hlocation : disp + (location ty.valueType).2 = disp := by
      cases ty <;> exact Int32.add_zero disp
    rw [hlocation] at hload
    cases ty <;> exact hload
  · have hconstant := fun index heq => hslot ⟨index, heq⟩
    have h' : (do
        let bits ← load inst ty.valueType .rax operand
        return bits ++ [.instr (.movToXmm (sizeOf ty.valueType) xmm .rax)] : Code) =
          .ok pieces := by
      cases operand with
      | slot index => exact absurd rfl (hconstant index)
      | branch | flags | int | float | double | symbol => exact h
    obtain ⟨loaded, hload, h'⟩ := bind_eq_ok.mp h'
    cases h'
    obtain ⟨w, hbits, hleads⟩ := leads_loadBits hs hcount hin hload
    let moved := (s.setReg .rax w).setXmm xmm
      (((s.setReg .rax w).regPart (sizeOf ty.valueType) .rax).setWidth 64)
    have hpart : xmmPart moved ty xmm = Word.low _ w := by
      rw [xmmPart, State.xmm_setXmm_same, low_setWidth, State.regPart, State.reg_setReg_same]
    refine ⟨moved, (Aside.setReg (.inl rfl) s w).trans (.xmm _ _ _), by rw [hbits, hpart],
      hleads.append (.single fun _ _ => rfl), (compact_load hload).append (compact_instr _)⟩

/-! ### Paths through the code -/

/-- The processor's conversion, and the compare of its answer with the least integer. -/
def conversionFront (source : Floating) (size : Size) : List Piece :=
  [.instr (.toInt (precisionOf source) size .rax xmm0)] ++ match size with
    | .dword => [.instr (.aluImm .cmp .dword .rax Int32.minValue)]
    | .qword => [.instr (.movImm64 .rcx Int64.minValue), .instr (.alu .cmp .qword .rax .rcx)]

/-- The load of the greatest integer. -/
def loadGreatest (size : Size) : Instr :=
  match size with
  | .dword => .movImm .dword .rax Int32.maxValue
  | .qword => .movImm64 .rax Int64.maxValue

/-- The code of a conversion behind the compare, without the store of its result. -/
def saturationCore (source : Floating) (size : Size) (nan done : Nat) : List Piece :=
  [.jump (some .ne) done, .instr (.ucomis (precisionOf source) xmm0 xmm0), .jump (some .p) nan,
    .instr (.movFromXmm (sizeOf source.valueType) .rcx xmm0),
    .instr (.test (sizeOf source.valueType) .rcx .rcx), .jump (some .s) done,
    .instr (loadGreatest size), .jump none done, .label nan, .instr (.alu .xor .dword .rax .rax),
    .label done]

/-- What the template of a conversion puts together. -/
theorem toIntegralTemplate_eq_ok {inst : Inst} {source : Floating} {target : Integral} {fresh : Nat}
    {part : List Piece} (h : toIntegralTemplate inst source target fresh = .ok part) :
    ∃ a operand result, inst.args[0]? = some a ∧ loadXmm inst source xmm0 a = .ok operand ∧
      store inst target.valueType .rax = .ok result ∧
      part = (operand ++ conversionFront source (sizeOf target.valueType)) ++
        (saturationCore source (sizeOf target.valueType) fresh (fresh + 1) ++ result) := by
  obtain ⟨a, ha, h⟩ := bind_eq_ok.mp h
  obtain ⟨operand, hoperand, h⟩ := bind_eq_ok.mp h
  obtain ⟨result, hresult, h⟩ := bind_eq_ok.mp h
  cases h
  refine ⟨a, operand, result, argument_eq_ok ha, hoperand, hresult, ?_⟩
  cases target <;>
    simp [conversionFront, saturationCore, loadGreatest, sizeOf, location, Integral.valueType]

section Paths

variable {source : Floating} {size : Size} {s : State}

/-- The processor's conversion and the compare. -/
theorem leads_truncated (s : State) (source : Floating) (size : Size) :
    ∃ t, Aside s t ∧ xmmPart t source xmm0 = xmmPart s source xmm0 ∧
      t.regPart size .rax =
        truncated (formatOf (precisionOf source)) (width size) (xmmPart s source xmm0).toNat ∧
      t.flags.zero = decide (t.regPart size .rax = .intMin _) ∧
      Leads (conversionFront source size) s t := by
  let x :=
    truncated (formatOf (precisionOf source)) (width size) (s.scalar (precisionOf source) xmm0)
  let converted := s.setPart size .rax x
  obtain ⟨u, hbeside, hkept, hleads⟩ := leads_aluLeast converted .cmp size
  obtain ⟨hbeside', hflags, -⟩ := aluReg_spec u .cmp size (.intMin _)
  have hrax : (u.aluReg .cmp size .rax (.intMin _)).regPart size .rax = x :=
    (congrArg (Word.low size) hkept).trans (regPart_setPart_same s size .rax x)
  refine ⟨u.aluReg .cmp size .rax (.intMin _),
    (Aside.setReg (.inl rfl) s _).trans (hbeside.trans hbeside').aside, ?_, ?_, ?_,
    (Leads.single fun _ _ => rfl).append hleads⟩
  · exact congrArg
      (fun xmms : Vector Word 16 => Word.low _ (xmms.get xmm0)) (hbeside.trans hbeside').xmms
  · rw [hrax, ← scalar_eq]
  · have hu : u.regPart size .rax = x :=
      (congrArg (Word.low size) hkept).trans (regPart_setPart_same s size .rax x)
    rw [hflags, (flags_cmp _ _).1, hrax, hu, decide_eq_decide, BitVec.toInt_inj]

/-- After the load of the greatest integer it is in `rax`. -/
theorem execute_loadGreatest (size : Size) (s : State) :
    ∃ t, Aside s t ∧ t.regPart size .rax = .intMax _ ∧
      ∀ hosts rip, execute hosts { s with rip } (loadGreatest size) = .next { t with rip } := by
  cases size with
  | dword =>
      exact ⟨s.setPart .dword .rax (BitVec.intMax 32), .setReg (.inl rfl) _ _,
        regPart_setPart_same .., fun _ _ => rfl⟩
  | qword =>
      exact ⟨s.setReg .rax (BitVec.intMax 64), .setReg (.inl rfl) _ _, State.reg_setReg_same ..,
        fun _ _ => rfl⟩

/-- The state after the operand was compared with itself. -/
def comparedSelf (s : State) (source : Floating) : State :=
  let x := s.scalar (precisionOf source) xmm0
  { s with flags := comparisonFlags ((formatOf (precisionOf source)).compare? x x) }

/-- The flags then tell whether it is a NaN. -/
theorem parity_comparedSelf (s : State) (source : Floating) :
    (comparedSelf s source).flags.parity =
      (formatOf (precisionOf source)).isNaN (xmmPart s source xmm0).toNat := by
  simp only [comparedSelf, scalar_eq, compare?_self]
  cases (formatOf (precisionOf source)).isNaN (xmmPart s source xmm0).toNat <;> rfl

variable (size) (nan done : Nat)

/-- When the answer is the least integer, the operand is compared with itself. -/
theorem reaches_comparedSelf (hzero : s.flags.zero = true) :
    Reaches (saturationCore source size nan done) 0 s 2 (comparedSelf s source) := by
  have hmissed : (some Cond.ne).all s.flags.holds = false := congrArg Bool.not hzero
  exact .missed rfl (k := 10) rfl hmissed (.instr rfl (fun _ _ => rfl) (.refl 2 _))

/-- A NaN becomes zero. -/
theorem reaches_nan (hzero : s.flags.zero = true)
    (hnan : (formatOf (precisionOf source)).isNaN (xmmPart s source xmm0).toNat = true) :
    ∃ t, Aside s t ∧ t.regPart size .rax = 0 ∧
      Reaches (saturationCore source size nan done) 0 s
        (saturationCore source size nan done).length t := by
  let compared := comparedSelf s source
  let cleared := compared.aluReg .xor .dword .rax (compared.regPart .dword .rax)
  have htaken : (some Cond.p).all compared.flags.holds = true :=
    (parity_comparedSelf s source).trans hnan
  refine ⟨cleared, (Aside.flags s _).trans (aluReg_spec compared .xor .dword _).1.aside,
    regPart_clear compared size, (reaches_comparedSelf size nan done hzero).trans ?_⟩
  exact .taken rfl (k := 8) rfl htaken (.label rfl
    (.instr rfl (t := cleared)
      (fun _ rip => congrArg Progress.next (aluReg_rip compared _ _ _ _ rip))
      (.label rfl (.refl 11 _))))

/-- Any other operand gets control to the jump on its sign, with the answer untouched. -/
theorem reaches_sign (hzero : s.flags.zero = true)
    (hnan : (formatOf (precisionOf source)).isNaN (xmmPart s source xmm0).toNat = false) :
    ∃ t, Aside s t ∧ t.regPart size .rax = s.regPart size .rax ∧
      t.flags.sign = (datumOf source (xmmPart s source xmm0)).negative ∧
      Reaches (saturationCore source size nan done) 0 s 5 t := by
  let compared := comparedSelf s source
  let moved := compared.setPart (sizeOf source.valueType) .rcx (xmmPart s source xmm0)
  have hrcx : moved.regPart (sizeOf source.valueType) .rcx = xmmPart s source xmm0 :=
    regPart_setPart_same ..
  let tested : State := { moved with
    flags := resultFlags (moved.regPart (sizeOf source.valueType) .rcx &&&
      moved.regPart (sizeOf source.valueType) .rcx) false false }
  have hnumber : (some Cond.p).all compared.flags.holds = false :=
    (parity_comparedSelf s source).trans hnan
  refine ⟨tested,
    (Aside.flags s _).trans ((Aside.setReg (.inr (.inl rfl)) compared _).trans (.flags _ _)),
    ?_, ?_, (reaches_comparedSelf size nan done hzero).trans ?_⟩
  · exact congrArg (Word.low size) (State.reg_setReg_of_ne compared .rcx _ (by decide))
  · show (moved.regPart (sizeOf source.valueType) .rcx &&&
      moved.regPart (sizeOf source.valueType) .rcx).msb = _
    rw [hrcx, BitVec.and_self, msb_eq_negative]
  · exact .missed rfl (k := 8) rfl hnumber (.instr rfl (t := moved) (fun _ _ => rfl)
      (.instr rfl (t := tested) (fun _ _ => rfl) (.refl 5 _)))

/-- What the code makes of the processor's answer. -/
theorem reaches_saturated
    (hrax : s.regPart size .rax =
      truncated (formatOf (precisionOf source)) (width size) (xmmPart s source xmm0).toNat)
    (hzero : s.flags.zero = decide (s.regPart size .rax = .intMin _)) :
    ∃ t, Aside s t ∧
      (t.regPart size .rax).toInt =
        (datumOf source (xmmPart s source xmm0)).saturated (width size) ∧
      Reaches (saturationCore source size nan done) 0 s
        (saturationCore source size nan done).length t := by
  have hw : 0 < width size := by cases size <;> decide
  by_cases hleast : s.regPart size .rax = .intMin _
  · rw [decide_eq_true hleast] at hzero
    rw [hrax] at hleast
    cases hnan : (formatOf (precisionOf source)).isNaN (xmmPart s source xmm0).toNat with
    | true =>
        obtain ⟨t, haside, hresult, hreaches⟩ := reaches_nan size nan done hzero hnan
        refine ⟨t, haside, ?_, hreaches⟩
        rw [hresult]
        exact BitVec.toInt_zero.trans (saturated_of_isNaN hnan).symm
    | false =>
        obtain ⟨t, haside, hkept, hsign, hreaches⟩ := reaches_sign size nan done hzero hnan
        have hsaturated := saturated_of_least hw hleast hnan
        rw [← datumOf, ← hsign] at hsaturated
        cases hnegative : t.flags.sign with
        | true =>
            rw [hnegative, if_pos rfl] at hsaturated
            refine ⟨t, haside, ?_,
              hreaches.trans (.taken rfl (k := 10) rfl hnegative (.label rfl (.refl 11 _)))⟩
            rw [hsaturated, hkept, hrax, hleast]
        | false =>
            rw [hnegative, if_neg Bool.false_ne_true] at hsaturated
            obtain ⟨u, haside', hgreatest, hexec⟩ := execute_loadGreatest size t
            refine ⟨u, haside.trans haside', ?_, hreaches.trans (.missed rfl (k := 10) rfl hnegative
              (.instr rfl hexec (.taken rfl (k := 10) rfl rfl (.label rfl (.refl 11 _)))))⟩
            rw [hsaturated, hgreatest]
  · have htaken : (some Cond.ne).all s.flags.holds = true :=
      congrArg Bool.not (hzero.trans (decide_eq_false hleast))
    have hanswer := toInt_truncated hw (hrax ▸ hleast)
    rw [← hrax] at hanswer
    exact ⟨s, .flags s s.flags, hanswer, .taken rfl (k := 10) rfl htaken (.label rfl (.refl 11 _))⟩

end Paths

/-! ### The code of a conversion -/

/-- The conversion of the processor is short. -/
theorem compact_conversionFront (source : Floating) (size : Size) :
    Compact 3 (conversionFront source size) := by
  cases size with
  | dword => exact ⟨by simp [conversionFront], Nat.le_succ 2⟩
  | qword => exact ⟨by simp [conversionFront], Nat.le_refl 3⟩

/-- The correction of its result is short. -/
theorem compact_saturationCore (source : Floating) (size : Size) (nan done : Nat) :
    Compact 11 (saturationCore source size nan done) :=
  ⟨by simp [saturationCore], Nat.le_refl 11⟩

/-- **Conversion to integers.** Wherever the code of a conversion from a floating point type to an
integer type is executed, whatever its operand is: control gets to the end of the code, the
destination has the integer that the operand's bit pattern is converted to, and no other byte of
memory and no register but scratch registers has changed. -/
theorem conversion_saturates {code : CodeMap} {region : Region} {inst : Inst} {start finish : Nat}
    (hcode : CodeAt code region inst start finish) {source : Floating} {target : Integral}
    (hkind : inst.kind = .convert (.toIntegral source target)) {base count : Nat} {frame : Frame}
    {s : State} (hs : s.Sees base count frame) (hcount : count < 2 ^ 31) (hin : InFrame count inst)
    (hrip : s.rip = regionAddress region start) (hosts : Hosts) :
    ∃ a dst x n t r, inst.args[0]? = some a ∧ inst.dst = some (.slot dst) ∧
      operandBits? frame source.valueType a = some x ∧
      run (NativeMachine.step hosts code region) n s = .next t ∧
      t.rip = regionAddress region finish ∧
      r.toInt = (datumOf source x).saturated (width (sizeOf target.valueType)) ∧
      StoresOnly target (base + dst) r s t := by
  obtain ⟨site, fresh, part, place, htemplate, hfragment, rfl, rfl⟩ := hcode
  rw [template, hkind] at htemplate
  obtain ⟨a, operand, result, ha, hoperand, hresult, rfl⟩ := toIntegralTemplate_eq_ok htemplate
  obtain ⟨dst, hdst⟩ := dst_of_store hresult
  obtain ⟨loaded, hloaded, hx, hload, hcompact⟩ :=
    leads_loadXmm hs hcount (hin.argument ha) hoperand
  obtain ⟨converted, hconverted, hxmm, hrax, hzero, hconvert⟩ :=
    leads_truncated loaded source (sizeOf target.valueType)
  rw [← hxmm] at hrax hx
  obtain ⟨t, haside, hr, hreaches⟩ := reaches_saturated _ fresh (fresh + 1) hrax hzero
  have hfew := (hcompact.append (compact_conversionFront source (sizeOf target.valueType))).append
    ((compact_saturationCore source (sizeOf target.valueType) fresh (fresh + 1)).append
      (compact_store hresult))
  obtain ⟨n, u, hrun, hfinish, hstored⟩ := hfragment.run_stores hfew (by decide) hs hcount hdst
    (hin.dst dst hdst) (hload.append hconvert) (hloaded.trans hconverted) hreaches haside
    hresult hosts
  have hstart : { s with rip := regionAddress region (place 0) } = s := by rw [← hrip]
  rw [hstart] at hrun
  exact ⟨a, dst, _, n, u, _, ha, hdst, hx, hrun, hfinish, hr, hstored⟩

/-- A double that is replaced by a long. -/
def longOfDouble : Inst :=
  { kind := .convert (.toIntegral .double .long), dst := some (.slot 0), args := [.slot 0] }

/-- The code of `longOfDouble`. -/
theorem bodyPieces_longOfDouble :
    bodyPieces ⟨Lowering.countdownContext, fun _ => none, 1⟩ (longMethod longOfDouble 1).body.code =
      .ok [.instr (.lea .rax (frameMem 16)),
        .instr (.aluLoad .cmp .qword .rax { base := envReg, disp := limitOffset }),
        .jump (some .be) 3, .instr .trap, .label 3, .instr (.loadScalar .double xmm0 (frameMem 0)),
        .instr (.toInt .double .qword .rax xmm0), .instr (.movImm64 .rcx Int64.minValue),
        .instr (.alu .cmp .qword .rax .rcx), .jump (some .ne) 5, .instr (.ucomis .double xmm0 xmm0),
        .jump (some .p) 4, .instr (.movFromXmm .qword .rcx xmm0), .instr (.test .qword .rcx .rcx),
        .jump (some .s) 5, .instr (.movImm64 .rax Int64.maxValue), .jump none 5, .label 4,
        .instr (.alu .xor .dword .rax .rax), .label 5, .instr (.store .qword (frameMem 0) .rax),
        .instr (.load .qword .rax (frameMem 0)), .instr returnJump] := by
  simp only [bodyPieces, instructionPieces, labelAt, contains_branchLabels, longMethod]
  decide +kernel

/-- Doubles and the longs that they are converted to: a negative NaN, the least long, its opposite,
which is no long, negative infinity and `-2.5`. -/
def convertedDoubles : List (Word × Word) :=
  [(0xfff8000000000001, 0), (0xc3e0000000000000, BitVec.intMin 64),
    (0x43e0000000000000, BitVec.intMax 64),
    (0xfff0000000000000, BitVec.intMin 64), (0xc004000000000000, -2)]

/-- What the examples convert to. -/
theorem saturated_convertedDoubles :
    ∀ p ∈ convertedDoubles, (datumOf .double p.1).saturated 64 = p.2.toInt := by
  simp only [convertedDoubles, List.forall_mem_cons]
  -- One goal at a time keeps each evaluation small.
  refine ⟨?_, ?_, ?_, ?_, ?_, by simp⟩ <;> decide +kernel

/-- Every way through the code of a conversion is taken. -/
theorem conversion_saturates_doubles :
    ∃ compiled relocations alloc' start finish,
      compileMethod Lowering.countdownContext (fun _ => none) { next := Allocator.codeBase }
        (longMethod longOfDouble 1).id (longMethod longOfDouble 1) =
          (alloc', .ok (compiled, relocations)) ∧
      CodeAt (CodeMap.insert {} compiled.code) compiled.code longOfDouble start finish ∧
      ∀ p ∈ convertedDoubles, ∃ n t,
        run (NativeMachine.step (fun _ => none) (CodeMap.insert {} compiled.code) compiled.code) n
          (framedState #[{ scalar := p.1 }] (regionAddress compiled.code start)) = .next t ∧
        t.rip = regionAddress compiled.code finish ∧
        (t.memory.slots[0]?).map (Value.ofSlot .long) = some (.long p.2) := by
  obtain ⟨compiled, relocations, alloc', hcompile, hshows⟩ :=
    @exists_shown Lowering.countdownContext (fun _ => none) (longMethod longOfDouble 1) _ rfl
      bodyPieces_longOfDouble (by decide) (by decide) (by decide)
  obtain ⟨start, finish, hcode⟩ := exists_codeAt hcompile hshows
    (show (longMethod longOfDouble 1).body.code[0]? = some longOfDouble from rfl)
  have hin : InFrame 1 longOfDouble := ⟨by simp [longOfDouble], by simp [longOfDouble]⟩
  have hkind : longOfDouble.kind = .convert (.toIntegral .double .long) := rfl
  refine ⟨compiled, relocations, alloc', start, finish, hcompile, hcode, fun p hp => ?_⟩
  obtain ⟨a, dst, x, n, t, r, ha, hdst, hx, hrun, hrip, hr, hstored⟩ :=
    conversion_saturates hcode hkind
      (sees_framedState (show #[({ scalar := p.1 } : Slot)].size ≤ 2 ^ 54 by simp)
        (regionAddress compiled.code start)) (by simp) hin rfl fun _ => none
  cases ha
  cases hdst
  cases hx
  obtain rfl : r = p.2 := BitVec.toInt_inj.mp (hr.trans (saturated_convertedDoubles p hp))
  exact ⟨n, t, hrun, hrip, hstored.value⟩

end SlotJit.Codegen

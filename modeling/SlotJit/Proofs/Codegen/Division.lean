import SlotJit.Proofs.Codegen.Branching
import SlotJit.Proofs.Codegen.Correctness

/-!
# Division

The processor divides a number of twice the width by one of the width, and faults if the divisor is
zero or the quotient has no room. The code of a division spreads the sign of the dividend over the
upper half, so that the quotient has room but for the least number divided by minus one. A divisor
of minus one therefore takes a path without a division: the quotient is the negated dividend, which
for the least number is that number again, and the remainder is zero.

## Main results

* `divide?_signFill`: the processor's division of a number with its sign spread.
* `reaches_minusOne`, `reaches_idiv`: the two paths of the code.
* `division_truncates`: what the code of a division does.
-/

namespace SlotJit.Codegen

open SlotJit.CodeMemory SlotJit.Ir SlotJit.Machine SlotJit.Semantics SlotJit.Tables SlotJit.X64

/-! ### Quotients and remainders -/

section Words

variable {w : Nat} {x y : BitVec w}

/-- The number that a division stores, for a divisor that is not zero: the quotient towards zero, or
the remainder, which has the sign of the dividend. The one quotient that is out of range is the
least number. -/
def divisionResult (remainder : Bool) (x y : BitVec w) : Int :=
  if remainder then x.toInt.tmod y.toInt
  else if x = BitVec.intMin w ∧ y.toInt = -1 then (BitVec.intMin w).toInt
  else x.toInt.tdiv y.toInt

/-- A number whose sign is spread over another word is the same number in twice the width. -/
theorem signFill_dividend (x : BitVec w) :
    (signFill x).toInt * (Nat.pow 2 w : Nat) + x.toNat = x.toInt := by
  have hpow : ((Nat.pow 2 w : Nat) : Int) = 2 ^ w := by simp
  rw [hpow, BitVec.toInt_eq_msb_cond x, signFill]
  split
  · rename_i hmsb
    have hw : 0 < w := Nat.pos_of_ne_zero fun hzero => by
      subst hzero
      simp [BitVec.eq_nil x] at hmsb
    rw [BitVec.toInt_allOnes, if_pos hw]
    push_cast
    omega
  · simp

/-- A divisor that is not zero. -/
theorem toInt_ne_zero (hy : y ≠ 0) : y.toInt ≠ 0 :=
    fun h => hy (BitVec.toInt_inj.mp (by rw [h]; simp))

/-- Quotients by anything but zero and minus one are in range, and remainders are. -/
theorem tdiv_in_range (hzero : y.toInt ≠ 0) (hne : y.toInt ≠ -1) :
    -2 ^ (w - 1) ≤ x.toInt.tdiv y.toInt ∧ x.toInt.tdiv y.toInt < 2 ^ (w - 1) := by
  have hx₁ : -2 ^ (w - 1) ≤ x.toInt := BitVec.le_toInt x
  have hx₂ : x.toInt < 2 ^ (w - 1) := BitVec.toInt_lt
  by_cases hone : y.toInt = 1
  · rw [hone, Int.tdiv_one]
    exact ⟨hx₁, hx₂⟩
  · have hhalf : (x.toInt.tdiv y.toInt).natAbs ≤ x.toInt.natAbs / 2 := by
      rw [Int.natAbs_tdiv]
      exact Nat.div_le_div_left (by omega) (by decide)
    have hpos : (0 : Int) < 2 ^ (w - 1) := by positivity
    omega

/-- A remainder is in range. -/
theorem tmod_in_range (hzero : y.toInt ≠ 0) :
    -2 ^ (w - 1) ≤ x.toInt.tmod y.toInt ∧ x.toInt.tmod y.toInt < 2 ^ (w - 1) := by
  have hy₁ : -2 ^ (w - 1) ≤ y.toInt := BitVec.le_toInt y
  have hy₂ : y.toInt < 2 ^ (w - 1) := BitVec.toInt_lt
  have hless : (x.toInt.tmod y.toInt).natAbs < y.toInt.natAbs := by
    rw [Int.natAbs_tmod]
    exact Nat.mod_lt _ (by omega)
  omega

/-- The processor's division of a number with its sign spread, by anything but minus one. -/
theorem divide?_signFill (hne : y.toInt ≠ -1) :
    (y = 0 → divide? (signFill x) x y = none) ∧
      (y ≠ 0 → ∃ q r, divide? (signFill x) x y = some (q, r) ∧ q.toInt = divisionResult false x y ∧
        r.toInt = divisionResult true x y) := by
  unfold divide?
  simp only [signFill_dividend]
  constructor
  · rintro rfl
    rw [if_pos (by simp)]
  · intro hy
    have hw : 0 < w := Nat.pos_of_ne_zero fun hzero => by
      subst hzero
      exact hy (BitVec.eq_nil y)
    have hzero := toInt_ne_zero hy
    obtain ⟨hq₁, hq₂⟩ := tdiv_in_range (x := x) hzero hne
    obtain ⟨hr₁, hr₂⟩ := tmod_in_range (x := x) hzero
    have hrange : (BitVec.intMin w).toInt ≤ x.toInt.tdiv y.toInt ∧
        x.toInt.tdiv y.toInt ≤ (BitVec.intMax w).toInt := by
      rw [BitVec.toInt_intMin_of_pos hw, BitVec.toInt_intMax]
      omega
    rw [if_neg hzero, if_pos hrange]
    refine ⟨_, _, rfl, ?_, ?_⟩
    · rw [BitVec.toInt_ofInt_eq_self hw hq₁ hq₂]
      simp [divisionResult, hne]
    · rw [BitVec.toInt_ofInt_eq_self hw hr₁ hr₂]
      rfl

/-- Without a division: the negated dividend and zero. -/
theorem divisionResult_minusOne (hy : y.toInt = -1) :
    (-x).toInt = divisionResult false x y ∧ 0 = divisionResult true x y := by
  constructor
  · rw [BitVec.toInt_neg_eq_ite, divisionResult, hy]
    by_cases hx : x = BitVec.intMin w
    · simp [hx]
    · simp [hx, Int.tdiv_neg, Int.tdiv_one]
  · simp [divisionResult, hy]

end Words

/-! ### Paths through the code -/

/-- The code of a division without its operands and the store of its result. -/
def divisionCore (size : Size) (remainder : Bool) (divide done : Nat) : List Piece :=
  [.instr (.aluImm .cmp size .rcx (-1)), .jump (some .ne) divide,
    .instr (if remainder then .alu .xor .dword .rax .rax else .neg size .rax),
    .jump none done, .label divide, .instr (.signExtendAcc size), .instr (.idiv size .rcx)]
  ++ (if remainder then [.instr (.mov size .rax .rdx)] else []) ++ [.label done]

/-- What the template of a division puts together. -/
theorem divTemplate_eq_ok {inst : Inst} {ty : ValueType} {remainder : Bool} {fresh : Nat}
    {part : List Piece} (h : divTemplate inst ty remainder fresh = .ok part) :
    ∃ a b divisor dividend result, inst.args[0]? = some a ∧ inst.args[1]? = some b ∧
      load inst ty .rcx b = .ok divisor ∧ load inst ty .rax a = .ok dividend ∧
      store inst ty .rax = .ok result ∧
      part = (divisor ++ dividend) ++
        (divisionCore (sizeOf ty) remainder fresh (fresh + 1) ++ result) := by
  obtain ⟨a, ha, h⟩ := bind_eq_ok.mp h
  obtain ⟨b, hb, h⟩ := bind_eq_ok.mp h
  obtain ⟨divisor, hdivisor, h⟩ := bind_eq_ok.mp h
  obtain ⟨dividend, hdividend, h⟩ := bind_eq_ok.mp h
  obtain ⟨result, hresult, h⟩ := bind_eq_ok.mp h
  cases h
  exact ⟨a, b, divisor, dividend, result, argument_eq_ok ha, argument_eq_ok hb, hdivisor, hdividend,
    hresult, by simp [divisionCore]⟩

section Paths

variable {size : Size} {s : State} (remainder : Bool) (divide done : Nat)

/-- The compare with minus one. -/
theorem holds_ne_minusOne (y : BitVec (width size)) :
    (some Cond.ne).all (alu .cmp y (Machine.constant size (-1))).2.holds =
      decide (y.toInt ≠ -1) := by
  have hconstant : (Machine.constant size (-1)).toInt = -1 := by cases size <;> rfl
  rw [Option.all_some, Flags.holds, (flags_cmp y _).1, hconstant, decide_not]

/-- A divisor of minus one takes the path without a division. -/
theorem reaches_minusOne (hy : (s.regPart size .rcx).toInt = -1) :
    ∃ t, Aside s t ∧
      (t.regPart size .rax).toInt =
        divisionResult remainder (s.regPart size .rax) (s.regPart size .rcx) ∧
      Reaches (divisionCore size remainder divide done) 0 s
        (divisionCore size remainder divide done).length t := by
  obtain ⟨hneg, hzero⟩ := divisionResult_minusOne (x := s.regPart size .rax) hy
  let compared : State :=
    { s with flags := (alu .cmp (s.regPart size .rcx) (Machine.constant size (-1))).2 }
  have hmissed : (some Cond.ne).all compared.flags.holds = false := by
    rw [holds_ne_minusOne, hy]
    rfl
  cases remainder with
  | false =>
      let negated := { compared with flags := (negate (s.regPart size .rax)).2 }.setPart size .rax
        (-s.regPart size .rax)
      have haside : Aside s negated :=
        (Aside.flags s _).trans ((Aside.flags compared _).trans (.setReg (.inl rfl) _ _))
      refine ⟨negated, haside, ?_, .instr rfl (t := compared) (fun _ _ => rfl) ?_⟩
      · rw [← hneg]
        exact congrArg BitVec.toInt (regPart_setPart_same ..)
      · exact .missed rfl (k := 4) rfl hmissed (.instr rfl (t := negated) (fun _ _ => rfl)
          (.taken rfl (k := 7) rfl rfl (.label rfl (.refl 8 _))))
  | true =>
      let cleared := compared.aluReg .xor .dword .rax (compared.regPart .dword .rax)
      have haside : Aside s cleared :=
        (Aside.flags s _).trans (aluReg_spec compared .xor .dword _).1.aside
      refine ⟨cleared, haside, ?_, .instr rfl (t := compared) (fun _ _ => rfl) ?_⟩
      · rw [← hzero]
        exact (congrArg BitVec.toInt (regPart_clear compared size)).trans BitVec.toInt_zero
      · exact .missed rfl (k := 4) rfl hmissed
          (.instr rfl (t := cleared)
            (fun _ rip => congrArg Progress.next (aluReg_rip compared _ _ _ _ rip))
            (.taken rfl (k := 8) rfl rfl (.label rfl (.refl 9 _))))

/-- Any other divisor gets control to the division, with the sign of the dividend spread. -/
theorem reaches_idiv (hy : (s.regPart size .rcx).toInt ≠ -1) :
    ∃ t, Aside s t ∧ t.regPart size .rdx = signFill (s.regPart size .rax) ∧
      t.regPart size .rax = s.regPart size .rax ∧ t.regPart size .rcx = s.regPart size .rcx ∧
      Reaches (divisionCore size remainder divide done) 0 s 6 t := by
  let compared : State :=
    { s with flags := (alu .cmp (s.regPart size .rcx) (Machine.constant size (-1))).2 }
  have htaken : (some Cond.ne).all compared.flags.holds = true := by
    rw [holds_ne_minusOne, decide_eq_true hy]
  let spread := compared.setPart size .rdx (signFill (s.regPart size .rax))
  refine ⟨spread, (Aside.flags s _).trans (.setReg (.inr (.inr rfl)) _ _), regPart_setPart_same ..,
    regPart_setPart_of_ne _ _ _ (by decide), regPart_setPart_of_ne _ _ _ (by decide), ?_⟩
  exact .instr rfl (t := compared) (fun _ _ => rfl) (.taken rfl (k := 4) rfl htaken
      (.label rfl (.instr rfl (t := spread) (fun _ _ => rfl) (.refl 6 _))))

/-- The division, and the rest of the code. -/
theorem reaches_end {t : State} {q r : BitVec (width size)}
    (hdivide : divide? (t.regPart size .rdx) (t.regPart size .rax) (t.regPart size .rcx) =
      some (q, r)) :
    ∃ u, Aside t u ∧ u.regPart size .rax = (if remainder then r else q) ∧
      Reaches (divisionCore size remainder divide done) 6 t
        (divisionCore size remainder divide done).length u := by
  let divided := (t.setPart size .rax q).setPart size .rdx r
  have haside : Aside t divided :=
    (Aside.setReg (.inl rfl) t _).trans (.setReg (.inr (.inr rfl)) _ _)
  have hexec : ∀ hosts rip, execute hosts { t with rip } (.idiv size .rcx) =
      .next { divided with rip } := by
    intro hosts rip
    have hdivide' :
        divide? (State.regPart { t with rip } size .rdx) (State.regPart { t with rip } size .rax)
        (State.regPart { t with rip } size .rcx) = some (q, r) := hdivide
    rw [execute, hdivide']
    rfl
  cases remainder with
  | false =>
      refine ⟨divided, haside, ?_, .instr rfl hexec (.label rfl (.refl 8 _))⟩
      exact (regPart_setPart_of_ne _ _ _ (by decide)).trans (regPart_setPart_same ..)
  | true =>
      let moved := divided.setPart size .rax (divided.regPart size .rdx)
      refine ⟨moved, haside.trans (.setReg (.inl rfl) _ _), ?_,
        .instr rfl hexec (.instr rfl (t := moved) (fun _ _ => rfl) (.label rfl (.refl 9 _)))⟩
      exact (regPart_setPart_same ..).trans (regPart_setPart_same ..)

/-- What the code does with the operands in registers: it comes to a division that faults, or to its
end. -/
theorem divisionCore_outcome (s : State) (size : Size) :
    (s.regPart size .rcx = 0 →
      ∃ t, Aside s t ∧ Reaches (divisionCore size remainder divide done) 0 s 6 t ∧
      ∀ hosts rip, execute hosts { t with rip } (.idiv size .rcx) = .trap .fpe { t with rip }) ∧
    (s.regPart size .rcx ≠ 0 → ∃ t, Aside s t ∧
      (t.regPart size .rax).toInt =
        divisionResult remainder (s.regPart size .rax) (s.regPart size .rcx) ∧
      Reaches (divisionCore size remainder divide done) 0 s
        (divisionCore size remainder divide done).length t) := by
  by_cases hminus : (s.regPart size .rcx).toInt = -1
  · refine ⟨fun hzero => ?_, fun _ => reaches_minusOne remainder divide done hminus⟩
    rw [hzero] at hminus
    simp at hminus
  · obtain ⟨t, haside, hrdx, hrax, hrcx, hreaches⟩ := reaches_idiv remainder divide done hminus
    obtain ⟨hfault, hresult⟩ := divide?_signFill (x := s.regPart size .rax) hminus
    rw [← hrdx, ← hrax, ← hrcx] at hfault hresult
    constructor
    · intro hzero
      have hdivide : ∀ rip, divide? (State.regPart { t with rip } size .rdx)
          (State.regPart { t with rip } size .rax)
          (State.regPart { t with rip } size .rcx) = none :=
        fun _ => hfault (hrcx.trans hzero)
      refine ⟨t, haside, hreaches, fun hosts rip => ?_⟩
      rw [execute, hdivide]
    · intro hne
      obtain ⟨q, r, hdivide, hq, hr⟩ := hresult fun hzero => hne (hrcx.symm.trans hzero)
      obtain ⟨u, haside', hu, hrest⟩ := reaches_end remainder divide done hdivide
      refine ⟨u, haside.trans haside', ?_, hreaches.trans hrest⟩
      rw [hu, ← hrax, ← hrcx]
      cases remainder with
      | false => exact hq
      | true => exact hr

end Paths

/-! ### The code of a division -/

/-- The division itself is short. -/
theorem compact_divisionCore (size : Size) (remainder : Bool) (divide done : Nat) :
    Compact 9 (divisionCore size remainder divide done) := by
  cases remainder with
  | false => exact ⟨by simp [divisionCore], by simp [divisionCore]⟩
  | true => exact ⟨by simp [divisionCore], by simp [divisionCore]⟩

/-- The operands of a division are loaded, the divisor first. -/
theorem leads_operands {base count : Nat} {frame : Frame} {s : State} {inst : Inst} {ty : ValueType}
    {a b : Operand} {divisor dividend : List Piece} (hs : s.Sees base count frame)
    (hcount : count < 2 ^ 31) (hin : InFrame count inst) (ha : inst.args[0]? = some a)
    (hb : inst.args[1]? = some b) (hdivisor : load inst ty .rcx b = .ok divisor)
    (hdividend : load inst ty .rax a = .ok dividend) :
    ∃ t, Aside s t ∧ operandBits? frame ty a = some (t.regPart (sizeOf ty) .rax) ∧
      operandBits? frame ty b = some (t.regPart (sizeOf ty) .rcx) ∧
      Leads (divisor ++ dividend) s t := by
  obtain ⟨v, hy, hload⟩ := leads_loadBits hs hcount (hin.argument hb) hdivisor
  have hfirst : Aside s (s.setReg .rcx v) := .setReg (.inr (.inl rfl)) s v
  obtain ⟨u, hx, hload'⟩ := leads_loadBits (hfirst.sees hs) hcount (hin.argument ha) hdividend
  refine ⟨(s.setReg .rcx v).setReg .rax u, hfirst.trans (.setReg (.inl rfl) _ u), ?_, ?_,
    hload.append hload'⟩
  · rw [hx, State.regPart, State.reg_setReg_same]
  · rw [hy, State.regPart, State.reg_setReg_of_ne _ _ _ (by decide), State.reg_setReg_same]

/-- The destination of an instruction whose result is stored. -/
theorem dst_of_store {inst : Inst} {ty : ValueType} {reg : Reg} {pieces : List Piece}
    (h : store inst ty reg = .ok pieces) : ∃ dst, inst.dst = some (.slot dst) := by
  obtain ⟨dst, hdst, -⟩ := bind_eq_ok.mp h
  exact ⟨dst, dstSlot_eq_ok hdst⟩

/-- **Division.** Wherever the code of a division is executed, whatever its operands are and
whichever of its slots are the same: with a divisor of zero the processor faults, with memory as it
was. With any other divisor control gets to the end of the code, the result is in the destination at
its width, and no other byte of memory and no register but scratch registers has changed. -/
theorem division_truncates {code : CodeMap} {region : Region} {inst : Inst} {start finish : Nat}
    (hcode : CodeAt code region inst start finish) {ty : Integral} {remainder : Bool}
    (hkind : inst.kind = .arith ty (if remainder then .rem else .div)) {base count : Nat}
    {frame : Frame} {s : State} (hs : s.Sees base count frame) (hcount : count < 2 ^ 31)
    (hin : InFrame count inst) (hrip : s.rip = regionAddress region start)
    (hosts : Hosts) :
    ∃ a b dst x y, inst.args[0]? = some a ∧ inst.args[1]? = some b ∧ inst.dst = some (.slot dst) ∧
      operandBits? frame ty.valueType a = some x ∧ operandBits? frame ty.valueType b = some y ∧
      (y = 0 → ∃ n t, run (NativeMachine.step hosts code region) n s = .halt (.trapped .fpe) t ∧
        t.memory = s.memory) ∧
      (y ≠ 0 → ∃ n t r, run (NativeMachine.step hosts code region) n s = .next t ∧
        t.rip = regionAddress region finish ∧ r.toInt = divisionResult remainder x y ∧
        StoresOnly ty (base + dst) r s t) := by
  obtain ⟨site, fresh, part, place, htemplate, hfragment, rfl, rfl⟩ := hcode
  have hdiv : divTemplate inst ty.valueType remainder fresh = .ok part := by
    rw [template, hkind] at htemplate
    cases remainder <;> exact htemplate
  obtain ⟨a, b, divisor, dividend, result, ha, hb, hdivisor, hdividend, hresult, rfl⟩ :=
    divTemplate_eq_ok hdiv
  obtain ⟨dst, hdst⟩ := dst_of_store hresult
  have hcompact := ((compact_load hdivisor).append (compact_load hdividend)).append
    ((compact_divisionCore (sizeOf ty.valueType) remainder fresh (fresh + 1)).append
      (compact_store hresult))
  have hstart : { s with rip := regionAddress region (place 0) } = s := by rw [← hrip]
  obtain ⟨loaded, hloaded, hx, hy, hleads⟩ := leads_operands hs hcount hin ha hb hdivisor hdividend
  obtain ⟨hfault, hends⟩ :=
    divisionCore_outcome remainder fresh (fresh + 1) loaded (sizeOf ty.valueType)
  refine ⟨a, b, dst, _, _, ha, hb, hdst, hx, hy, fun hzero => ?_, fun hne => ?_⟩
  · obtain ⟨t, haside, hreaches, htrap⟩ := hfault hzero
    have hpath := (hleads.reaches.append_right _).trans
      ((hreaches.append_right result).append_left (divisor ++ dividend))
    have hidiv : (divisor ++ dividend ++
        (divisionCore (sizeOf ty.valueType) remainder fresh (fresh + 1) ++ result))[
          (divisor ++ dividend).length + 6]? =
          some (.instr (.idiv (sizeOf ty.valueType) .rcx)) := by
      rw [List.getElem?_append_right (Nat.le_add_right _ _), Nat.add_sub_cancel_left]
      cases remainder <;> rfl
    obtain ⟨n, hrun⟩ :=
      hfragment.run_trap hcompact (by decide) hpath hidiv Instr.noConfusion (htrap hosts)
    rw [hstart] at hrun
    exact ⟨n, _, hrun, (hloaded.trans haside).memory⟩
  · obtain ⟨t, haside, hresultOf, hreaches⟩ := hends hne
    obtain ⟨n, u, hrun, hfinish, hstored⟩ :=
      hfragment.run_stores hcompact (by decide) hs hcount hdst
        (hin.dst dst hdst) hleads hloaded hreaches haside hresult hosts
    rw [hstart] at hrun
    exact ⟨n, u, _, hrun, hfinish, hresultOf, hstored⟩

/-- A machine at an address whose slots are all of one frame. -/
def framedState (slots : Array Slot) (rip : Word) : State :=
  let memory := { plainMemory with slots }
  State.setReg { regs := .replicate 16 0, xmms := .replicate 16 0, rip, memory } frameReg
    (memory.slotAddress 0)

/-- The frame of `framedState`. -/
theorem sees_framedState {slots : Array Slot} (hsize : slots.size ≤ 2 ^ 54) (rip : Word) :
    (framedState slots rip).Sees 0 slots.size fun i => slots[i]?.getD {} := by
  have hfit : 0x400000000000000 + 16 * slots.size ≤ 2 ^ 64 := by omega
  refine ⟨⟨State.reg_setReg_same _ _ _, Nat.le_of_eq (Nat.zero_add _), hfit⟩, fun i hi => ?_⟩
  rw [Nat.zero_add]
  show slots[i]? = _
  rw [Array.getElem?_eq_getElem hi, Option.getD_some]

/-- A quotient of longs that replaces its dividend. -/
def quotientInst : Inst :=
    { kind := .arith .long .div, dst := some (.slot 0), args := [.slot 0, .slot 1] }

/-- A method that returns the long in its first slot after an instruction. -/
def longMethod (inst : Inst) (frameSlots : Nat) : Method :=
  { Lowering.countdown with
    body := { code := [inst, { kind := .ret (some .long), args := [.slot 0] }], frameSlots } }

/-- The code of `quotientInst`. -/
theorem bodyPieces_quotient :
    bodyPieces ⟨Lowering.countdownContext, fun _ => none, 2⟩ (longMethod quotientInst 2).body.code =
      .ok [.instr (.lea .rax (frameMem 32)),
        .instr (.aluLoad .cmp .qword .rax { base := envReg, disp := limitOffset }),
        .jump (some .be) 3, .instr .trap, .label 3, .instr (.load .qword .rcx (frameMem 16)),
        .instr (.load .qword .rax (frameMem 0)), .instr (.aluImm .cmp .qword .rcx (-1)),
        .jump (some .ne) 4, .instr (.neg .qword .rax), .jump none 5, .label 4,
        .instr (.signExtendAcc .qword), .instr (.idiv .qword .rcx), .label 5,
        .instr (.store .qword (frameMem 0) .rax), .instr (.load .qword .rax (frameMem 0)),
        .instr returnJump] := by
  simp only [bodyPieces, instructionPieces, labelAt, contains_branchLabels, longMethod]
  decide +kernel

/-- The least long divided by minus one is the least long, and divided by zero it faults. -/
theorem division_truncates_leastLong :
    ∃ compiled relocations alloc' start finish,
      compileMethod Lowering.countdownContext (fun _ => none) { next := Allocator.codeBase }
        (longMethod quotientInst 2).id (longMethod quotientInst 2) =
          (alloc', .ok (compiled, relocations)) ∧
      CodeAt (CodeMap.insert {} compiled.code) compiled.code quotientInst start finish ∧
      (∃ n t, run
          (NativeMachine.step (fun _ => none) (CodeMap.insert {} compiled.code) compiled.code) n
          (framedState #[{ scalar := BitVec.intMin 64 }, { scalar := -1 }]
            (regionAddress compiled.code start)) = .next t ∧
        t.rip = regionAddress compiled.code finish ∧
        (t.memory.slots[0]?).map (Value.ofSlot .long) = some (.long (BitVec.intMin 64))) ∧
      ∃ n t, run
        (NativeMachine.step (fun _ => none) (CodeMap.insert {} compiled.code) compiled.code) n
        (framedState #[{ scalar := BitVec.intMin 64 }, {}] (regionAddress compiled.code start)) =
          .halt (.trapped .fpe) t := by
  obtain ⟨compiled, relocations, alloc', hcompile, hshows⟩ :=
    @exists_shown Lowering.countdownContext (fun _ => none) (longMethod quotientInst 2) _ rfl
      bodyPieces_quotient (by decide) (by decide) (by decide)
  obtain ⟨start, finish, hcode⟩ := exists_codeAt hcompile hshows
    (show (longMethod quotientInst 2).body.code[0]? = some quotientInst from rfl)
  have hin : InFrame 2 quotientInst := ⟨by simp [quotientInst], by simp [quotientInst]⟩
  have hkind : quotientInst.kind = .arith .long (if false then .rem else .div) := rfl
  have hruns (slots : Array Slot) (hsize : slots.size = 2) :=
    division_truncates hcode hkind
      (sees_framedState (show slots.size ≤ 2 ^ 54 by omega) (regionAddress compiled.code start))
      (by omega)
      (hsize ▸ hin) rfl fun _ => none
  refine ⟨compiled, relocations, alloc', start, finish, hcompile, hcode, ?_, ?_⟩
  · obtain ⟨a, b, dst, x, y, ha, hb, hdst, hx, hy, -, hends⟩ :=
      hruns #[{ scalar := BitVec.intMin 64 }, { scalar := -1 }] rfl
    cases ha
    cases hb
    cases hdst
    cases hx
    cases hy
    obtain ⟨n, t, r, hrun, hrip, hr, hstored⟩ := hends (by decide)
    obtain rfl : r = BitVec.intMin 64 := BitVec.toInt_inj.mp (hr.trans (by decide +kernel))
    exact ⟨n, t, hrun, hrip, hstored.value⟩
  · obtain ⟨a, b, dst, x, y, ha, hb, hdst, hx, hy, hfaults, -⟩ :=
      hruns #[{ scalar := BitVec.intMin 64 }, {}] rfl
    cases ha
    cases hb
    cases hdst
    cases hx
    cases hy
    obtain ⟨n, t, hrun, -⟩ := hfaults (by decide)
    exact ⟨n, t, hrun⟩

end SlotJit.Codegen

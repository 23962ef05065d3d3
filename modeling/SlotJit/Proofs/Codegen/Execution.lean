import SlotJit.Proofs.Codegen.Placement

/-!
# Executing code in place

How the native machine goes through pieces that are in place: straight code is executed step by step
and control gets to the offset after it, and a jump leads to the offset of its label or to the
offset after it.
-/

namespace SlotJit.Codegen

open SlotJit.CodeMemory SlotJit.Ir SlotJit.Machine SlotJit.Semantics SlotJit.X64

variable {hosts : Hosts} {code : CodeMap} {region : Region} {pieces part : List Piece}
  {offset : Nat → Nat} {start finish k : Nat} {i : Instr} {s t : State}

theorem regionAddress_add (region : Region) (start n : Nat) :
    regionAddress region start + BitVec.ofNat 64 n = regionAddress region (start + n) := by
  rw [regionAddress, regionAddress, BitVec.ofNat_add, BitVec.add_assoc]

/-- Where an instruction is read the processor fetches it, and that is not the end of the code. -/
theorem fetch_of_readsAt (hshows : code.Shows region) (hmappable : region.size < mappableSize)
    (hreads : ReadsAt region start finish i) (hfinish : finish ≤ region.size) :
    code.fetch (regionAddress region start) = some (some (i, BitVec.ofNat 64 (encode i).length)) ∧
      regionAddress region start ≠ regionAddress region region.size := by
  obtain ⟨hinstr, rfl⟩ := hreads
  have hpos := length_encode_pos i
  refine ⟨by rw [hshows start (by omega), hinstr], fun heq => ?_⟩
  have := regionAddress_inj hmappable (by omega) (Nat.le_refl _) heq
  omega

/-- An instruction is executed where it is read, with the instruction pointer at its end. -/
theorem step_of_readsAt (hshows : code.Shows region) (hmappable : region.size < mappableSize)
    (hreads : ReadsAt region start finish i) (hfinish : finish ≤ region.size) (hi : i ≠ returnJump)
    (hosts : Hosts) (s : State) :
    NativeMachine.step hosts code region { s with rip := regionAddress region start } =
      NativeMachine.ofProgress (execute hosts { s with rip := regionAddress region finish } i) := by
  obtain ⟨hfetch, hend⟩ := fetch_of_readsAt hshows hmappable hreads hfinish
  have hreturn : (code.fetch (regionAddress region start)).join.map Prod.fst ≠ some returnJump := by
    rw [hfetch]
    exact fun heq => hi (Option.some.inj heq)
  unfold NativeMachine.step
  rw [if_neg hend, if_neg hreturn, Machine.step, hfetch, hreads.2]
  simp only [Word.add_eq, regionAddress_add]

/-- At the jump by which the method returns the machine halts. -/
theorem step_returnJump (hshows : code.Shows region) (hmappable : region.size < mappableSize)
    (hreads : ReadsAt region start finish returnJump) (hfinish : finish ≤ region.size)
    (hosts : Hosts) (s : State) :
    NativeMachine.step hosts code region { s with rip := regionAddress region start } =
      .halt .left { s with rip := regionAddress region start } := by
  obtain ⟨hfetch, hend⟩ := fetch_of_readsAt hshows hmappable hreads hfinish
  unfold NativeMachine.step
  rw [if_neg hend, if_pos (by rw [hfetch]; rfl)]

/-- An instruction that goes on wherever it stands is not the jump by which methods return. -/
theorem ne_returnJump (h : ∀ hosts rip, execute hosts { s with rip } i = .next { t with rip }) :
    i ≠ returnJump := by
  rintro rfl
  have hexec : ∀ rip, State.loading { s with rip } .qword (s.address (frameMem (-slotSize)))
      (fun s rip => .next { s with rip }) = .next { t with rip } := h fun _ => none
  simp only [State.loading] at hexec
  cases hread : s.memory.read? .qword (s.address (frameMem (-slotSize))) with
  | none =>
      simp only [hread] at hexec
      cases hexec 0
  | some v =>
      simp only [hread] at hexec
      have hzero : v = 0 := congrArg State.rip (Progress.next.inj (hexec 0))
      have hone : v = 1 := congrArg State.rip (Progress.next.inj (hexec 1))
      exact absurd (hzero.symm.trans hone) (by decide)

/-- Straight code in place. -/
theorem run_leads (hshows : code.Shows region) (hplaced : Placed pieces offset region)
    (h : Leads part s t) (hpart : part <+: pieces.drop k) (hosts : Hosts) :
    run (NativeMachine.step hosts code region) part.length
        { s with rip := regionAddress region (offset k) } =
      .next { t with rip := regionAddress region (offset (k + part.length)) } := by
  obtain ⟨instrs, rfl, hstraight⟩ := h
  induction hstraight generalizing k with
  | nil s => rfl
  | @cons i is s u t head tail ih =>
      have hfirst : pieces[k]? = some (.instr i) := getElem?_of_isPrefix_drop (j := 0) hpart rfl
      obtain ⟨hlt, -⟩ := List.getElem?_eq_some_iff.mp hfirst
      have hrest : is.map .instr <+: pieces.drop (k + 1) := by
        obtain ⟨rest, hrest⟩ := hpart
        rw [← List.drop_drop, ← hrest]
        exact List.prefix_append _ _
      have hstep := step_of_readsAt hshows hplaced.mappable (hplaced.instr k i hfirst)
        (hplaced.offset_le hlt) (ne_returnJump head) hosts s
      rw [head] at hstep
      rw [List.map_cons, List.length_cons, run_succ_of_next hstep, ih hrest, Nat.add_right_comm]
      rfl

/-! ### Jumps -/

/-- A jump leads to its target if its condition holds, and goes on after itself otherwise. -/
theorem execute_jump {cond : Option Cond} {target : Nat} (h : JumpsTo cond finish target i)
    (hosts : Hosts) (s : State) :
    execute hosts { s with rip := regionAddress region finish } i =
      .next { s with rip :=
        regionAddress region (if cond.all s.flags.holds = true then target else finish) } := by
  have hreach : ∀ distance : Int, (finish : Int) + distance = target →
      regionAddress region finish + BitVec.ofInt 64 distance = regionAddress region target := by
    intro distance hdistance
    rw [regionAddress, regionAddress, BitVec.add_assoc, ← BitVec.ofInt_natCast, ← BitVec.ofInt_add,
      hdistance, BitVec.ofInt_natCast]
  cases h with
  | short distance hdistance =>
      rw [execute]
      split
      · rw [State.jumpBy, Word.add_eq, Word.ofInt32_eq, Int8.toInt_toInt32, hreach _ hdistance]
      · rfl
  | long distance hdistance =>
      rw [execute]
      split
      · rw [State.jumpBy, Word.add_eq, Word.ofInt32_eq, hreach _ hdistance]
      · rfl

/-! ### The stack check -/

/-- A method is entered in its region: the frame base is at a slot, the frame has some content, the
environment's limit can be read, and the frame ends below it, in a slot array that ends before the
last address. -/
structure Entered (base count : Nat) (frame : Frame) (region : Region) (s : State) : Prop where
  rip : s.rip = regionAddress region 0
  rsi : s.reg frameReg = s.memory.slotAddress base
  env : s.memory.cell? (s.reg envReg) = some .limit
  fits : base + count ≤ s.memory.slots.size - reservedSlots
  slotsFit : s.memory.SlotsFit
  slots : ∀ i < count, s.memory.slots[base + i]? = some (frame i)

/-- The frame that a method is entered with. -/
theorem Entered.sees {base count : Nat} {frame : Frame} (h : Entered base count frame region s) :
    s.Sees base count frame :=
  ⟨⟨h.rsi, Nat.le_trans h.fits (Nat.sub_le _ _), h.slotsFit⟩, h.slots⟩

/-- A compare of unsigned numbers. -/
theorem holds_be_cmp {size : Size} (x y : BitVec (width size)) :
    (alu .cmp x y).2.holds .be = decide (x.toNat ≤ y.toNat) := by
  have hzero : (x - y).toNat = 0 ↔ x.toNat = y.toNat := by
    rw [← BitVec.toNat_zero, BitVec.toNat_inj, BitVec.sub_eq_iff_eq_add, BitVec.zero_add,
      BitVec.toNat_inj]
  rw [Bool.eq_iff_iff]
  simp only [alu, resultFlags, Flags.holds, difference_eq, Bool.or_eq_true, decide_eq_true_eq,
    beq_iff_eq, BitVec.lt_def, hzero]
  exact Nat.le_iff_lt_or_eq.symm

/-- The compare of the stack check: where a frame of some slots would end, against the limit. -/
theorem straight_limitCheck {base count : Nat} (hs : s.AtFrame base 0)
    (henv : s.memory.cell? (s.reg envReg) = some .limit) (hcount : count < 2 ^ 31)
    (hwrap : s.memory.heap.place.slotBase + 16 * (base + count) < 2 ^ 64) {disp : Int32}
    (hdisp : slotDisp count = .ok disp) :
    ∃ t, Beside s t ∧
      t.flags.holds .be = decide (base + count ≤ s.memory.slots.size - reservedSlots) ∧
      Straight [.lea .rax (frameMem disp),
        .aluLoad .cmp .qword .rax { base := envReg, disp := limitOffset }] s t := by
  let reached := s.setReg .rax (s.memory.valueAddress .int (base + count))
  let checked := reached.aluReg .cmp .qword .rax (Word.low .qword s.memory.limit)
  have hlea : ∀ hosts rip, execute hosts { s with rip } (.lea .rax (frameMem disp)) =
      .next { reached with rip } := by
    intro hosts rip
    have hframe : State.AtFrame base 0 { s with rip } := ⟨hs.rsi, hs.fits, hs.slotsFit⟩
    have haddress := hframe.address hcount hdisp .int
    rw [show disp + (location .int).2 = disp from Int32.add_zero disp] at haddress
    rw [execute, haddress]
    rfl
  have hcompare : ∀ hosts rip, execute hosts { reached with rip }
      (.aluLoad .cmp .qword .rax { base := envReg, disp := limitOffset }) =
      .next { checked with rip } := by
    intro hosts rip
    have haddress : State.address { reached with rip } { base := envReg, disp := limitOffset } =
        s.reg envReg := by
      have henv : State.reg { reached with rip } envReg = s.reg envReg :=
        s.reg_setReg_of_ne .rax _ (by decide)
      rw [State.address, henv]
      exact BitVec.add_zero _
    have hread : reached.memory.read? .qword (s.reg envReg) = some s.memory.limit := by
      show s.memory.read? .qword (s.reg envReg) = _
      unfold Memory.read?
      rw [henv]
      rfl
    rw [execute, haddress]
    simp only [State.loading, hread]
    exact congrArg Progress.next (aluReg_rip reached .cmp .qword .rax _ rip)
  obtain ⟨hbeside, hflags, -⟩ := aluReg_spec reached .cmp .qword (Word.low .qword s.memory.limit)
  refine ⟨checked, (Beside.rax s _).trans hbeside, ?_, .cons hlea (.single hcompare)⟩
  have hrax : reached.regPart .qword .rax = s.memory.valueAddress .int (base + count) :=
    s.reg_setReg_same .rax _
  have hend : (s.memory.valueAddress .int (base + count)).toNat =
      s.memory.heap.place.slotBase + 16 * (base + count) := by
    show (BitVec.ofNat 64 (s.memory.heap.place.slotBase + 16 * (base + count) + 0)).toNat = _
    rw [BitVec.toNat_ofNat, Nat.add_zero, Nat.mod_eq_of_lt hwrap]
  have hlimit : (Word.low .qword s.memory.limit).toNat =
      s.memory.heap.place.slotBase + (s.memory.slots.size - reservedSlots) * 16 := by
    have hfit := hs.slotsFit
    unfold Memory.SlotsFit at hfit
    show (BitVec.ofNat 64 _).toNat = _
    rw [BitVec.toNat_ofNat, Nat.mod_eq_of_lt]
    unfold reservedSlots
    omega
  rw [hflags, holds_be_cmp, hrax, hend, hlimit, decide_eq_decide]
  omega

/-- The stack check passes and gets control to the code after it. -/
theorem run_check {base count label : Nat} {frame : Frame} (h : Entered base count frame region s)
    (hcount : count < 2 ^ 31) (hshows : code.Shows region) (hplaced : Placed pieces offset region)
    (hsize : region.size < 2 ^ 31) {check rest : List Piece}
    (hcheck : stackCheck count label = .ok check)
    (hpieces : pieces = check ++ rest) (hosts : Hosts) :
    ∃ t, Beside s t ∧ run (NativeMachine.step hosts code region) 3 s =
      .next { t with rip := regionAddress region (offset check.length) } := by
  obtain ⟨disp, hdisp, hcheck⟩ := bind_eq_ok.mp hcheck
  cases hcheck
  have hframe : s.AtFrame base 0 :=
    ⟨h.rsi, h.sees.fits.trans' (Nat.le_add_right _ _), h.sees.slotsFit⟩
  have hwrap : s.memory.heap.place.slotBase + 16 * (base + count) < 2 ^ 64 := by
    have hbase := s.memory.heap.place.slotBase_lt
    have hfits := h.fits
    have hfit := h.slotsFit
    unfold Memory.SlotsFit at hfit
    unfold reservedSlots at hfits
    omega
  obtain ⟨t, hbeside, hholds, hstraight⟩ := straight_limitCheck hframe h.env hcount hwrap hdisp
  rw [decide_eq_true h.fits] at hholds
  have hleads : Leads [.instr (.lea .rax (frameMem disp)),
      .instr (.aluLoad .cmp .qword .rax { base := envReg, disp := limitOffset })] s t := ⟨_, rfl,
      hstraight⟩
  have hlength : 5 ≤ pieces.length := by
    rw [hpieces, List.length_append]
    exact Nat.le_add_right 5 _
  have hjump : pieces[2]? = some (.jump (some .be) label) := by rw [hpieces]; rfl
  have hlabel : pieces[4]? = some (.label label) := by rw [hpieces]; rfl
  obtain ⟨j, hreads, hjumps⟩ := hplaced.jump 2 _ _ 4 hjump hlabel
  have hrun := run_leads hshows hplaced hleads (k := 0) ⟨_, by rw [hpieces]; rfl⟩ hosts
  have hstart : { s with rip := regionAddress region (offset 0) } = s := by
    rw [hplaced.first, ← h.rip]
  have hnear := hjumps (hplaced.near hsize (by omega) (by omega))
  have hstep :=
    step_of_readsAt hshows hplaced.mappable hreads (hplaced.offset_le (by omega)) ?_ hosts t
  · rw [execute_jump hnear, Option.all_some, if_pos hholds] at hstep
    refine ⟨t, hbeside, ?_⟩
    rw [hstart] at hrun
    refine (run_add (m := 2) hrun 1).trans ((run_succ_of_next hstep 0).trans ?_)
    rw [← hplaced.label 4 label hlabel]
    rfl
  · rintro rfl
    cases hnear

end SlotJit.Codegen

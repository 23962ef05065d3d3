import SlotJit.Proofs.Engine.EntryStub
import SlotJit.Proofs.Lowering.Footprint

/-!
# The bound of the slot array

A call from outside is refused if the frame of the method does not fit the slot array. The code of
the method makes the same check once more at its start, because it may also be called by compiled
code: it compares the address where its frame would end with the limit of the environment. Both
checks are of the same bound, so a method that is called from outside always gets past its own
check.

## Main results

* `run_prologue`: where the check of a method leads.
* `refused_iff`: when a call is refused, and that it then changes nothing.
* `stack_checks_agree`: both checks are of the same bound.
-/

namespace SlotJit.Engine

open SlotJit.CodeMemory SlotJit.Codegen SlotJit.Machine SlotJit.Semantics SlotJit.Tables SlotJit.X64

/-! ### The check of a method -/

/-- What the processor reads at the start of a method's code. The address of the end of a frame of
so many slots is compared with the environment's limit; if it is not above, control goes on at the
body, and else gets to an instruction that traps. -/
structure Prologue (region : Region) (frameSlots guard body : Nat) : Prop where
  reads : ∃ (disp : Int32) (compare jump : Nat) (instr : Instr), disp.toInt = 16 * frameSlots ∧
    ReadsAt region 0 compare (.lea .rax (frameMem disp)) ∧
    ReadsAt region compare jump
    (.aluLoad .cmp .qword .rax { base := envReg, disp := limitOffset }) ∧
    ReadsAt region jump guard instr ∧ JumpsTo (some .be) guard body instr
  trap : ReadsAt region guard body .trap
  inside : body ≤ region.size
  mappable : region.size < mappableSize

/-- A displacement is that of the slot where it ends. -/
theorem slotDisp_of_toInt {index : Nat} {disp : Int32} (h : disp.toInt = 16 * index) :
    slotDisp index = .ok disp := by
  have hlt := disp.toInt_lt
  have hvalue : (Int32.ofNat index).toInt = index := by
    rw [Int32.toInt_ofNat_of_lt (by omega)]
  rw [slotDisp, hvalue, show slotSize.toInt = 16 from rfl, Int.mul_comm, ← h, displacement,
    if_pos ⟨disp.le_toInt, by omega⟩, Int32.ofInt_toInt]

/-- The code of a published method starts with the check for its frame. -/
theorem Vm.Installed.prologue {vm : Vm} {site : Codegen.Site} {method : Method} {region : Region}
    {pieces : List Piece} {start offset : Nat → Nat}
    (h : vm.Installed site method region pieces start offset) :
    Prologue region method.body.frameSlots (offset 3) (offset 4) := by
  obtain ⟨ctx, owner, declared, hlower⟩ := h.lowered
  have hframe := Lowering.frameSlots_lt_of_lower hlower
  obtain ⟨check, hcheck, hbody⟩ := bind_eq_ok.mp h.body
  obtain ⟨rest, -, hbody⟩ := bind_eq_ok.mp hbody
  obtain ⟨disp, hdisp, hcheck⟩ := bind_eq_ok.mp hcheck
  rw [h.frameSlots] at hdisp
  cases hcheck
  cases hbody
  let label := method.body.code.length + 1
  have hplaced := h.placed
  have hlea := hplaced.instr 0 _ rfl
  have hcompare := hplaced.instr 1 _ rfl
  obtain ⟨instr, hreads, hjumps⟩ := hplaced.jump 2 (some .be) label 4 rfl rfl
  have htrap := hplaced.instr 3 _ rfl
  rw [hplaced.first] at hlea
  refine ⟨⟨disp, offset 1, offset 2, instr, ?_, hlea, hcompare, hreads, hjumps ?_⟩, htrap, ?_,
    hplaced.mappable⟩
  · exact (toInt_slotDisp (by omega) hdisp).1
  · have hend : offset 4 = offset (2 + 1) + 2 := htrap.2
    constructor <;> omega
  · exact hplaced.offset_le (by simp)

/-- The check of a method, from its first instruction to the body or the trap. -/
theorem run_prologue {code : CodeMap} {region : Region} {count guard body base : Nat} {s : State}
    (h : Prologue region count guard body) (hshows : code.Shows region)
    (hrip : s.rip = regionAddress region 0) (hs : s.AtFrame base 0)
    (henv : s.memory.cell? (s.reg envReg) = some .limit)
    (hwrap : s.memory.heap.place.slotBase + 16 * (base + count) < 2 ^ 64) (hosts : Hosts) :
    ∃ t, Beside s t ∧ Semantics.run (NativeMachine.step hosts code region) 3 s = .next { t with
      rip := regionAddress region
        (if base + count ≤ s.memory.slots.size - reservedSlots then body else guard) } := by
  obtain ⟨disp, compare, jump, instr, hdisp, hlea, hcompare, hjump, hjumps⟩ := h.reads
  have hcount : count < 2 ^ 31 := by
    have := disp.toInt_lt
    omega
  obtain ⟨t, hbeside, hholds, hstraight⟩ := straight_limitCheck hs henv hcount hwrap
    (slotDisp_of_toInt hdisp)
  cases hstraight with
  | @cons _ _ _ reached _ hfirst hrest =>
  cases hrest with
  | cons hsecond hnil =>
  cases hnil
  have hbody : body = guard + 2 := h.trap.2
  have hinside := h.inside
  have hcompareEnd := hcompare.2
  have hjumpEnd := hjump.2
  have hpos := length_encode_pos instr
  have hne : instr ≠ returnJump := by
    rintro rfl
    cases hjumps
  have hlea' := step_of_readsAt hshows h.mappable hlea (by omega) (ne_returnJump hfirst) hosts s
  have hcompare' :=
    step_of_readsAt hshows h.mappable hcompare (by omega) (ne_returnJump hsecond) hosts reached
  have hjump' := step_of_readsAt hshows h.mappable hjump (by omega) hne hosts t
  rw [hfirst] at hlea'
  rw [hsecond] at hcompare'
  rw [execute_jump hjumps, Option.all_some, hholds] at hjump'
  simp only [decide_eq_true_eq] at hjump'
  refine ⟨t, hbeside, ?_⟩
  rw [← hrip] at hlea'
  exact (run_succ_of_next hlea' 2).trans
    ((run_succ_of_next hcompare' 1).trans (run_succ_of_next hjump' 0))

/-! ### The check behind the stub -/

/-- After the thirteen instructions of the stub and the three of the check, control is at an offset
of the code. -/
def CheckLeadsTo (hosts : Hosts) (code : CodeMap) (slots : Array Slot) (heap : Heap)
    (region : Region) (offset : Nat) : Prop :=
  ∃ t, Machine.run hosts code (13 + 3) (Env.entryState slots heap region) = .exhausted t ∧
    t.rip = regionAddress region offset

/-- The check leads to a trap. -/
def CheckTraps (hosts : Hosts) (code : CodeMap) (slots : Array Slot) (heap : Heap) (region : Region)
    (guard : Nat) : Prop :=
  CheckLeadsTo hosts code slots heap region guard ∧
    ∃ t, Machine.run hosts code (13 + 4) (Env.entryState slots heap region) = .trapped .ill t

section Check

variable {hosts : Hosts} {code : CodeMap} {slots : Array Slot} {heap : Heap} {region : Region}
  {count guard body : Nat}

/-- The frame is at slot one, so the check passes if so many slots and one more are not reserved. -/
theorem checkLeadsTo (hstub : code.Shows stubRegion) (hcaller : code.fetch callerAddress = none)
    (hshows : code.Shows region) (h : Prologue region count guard body) (hpos : 0 < slots.size)
    (hapart : Apart (heap.place.runAreas slots.size nativeStackWords))
    (hwrap : heap.place.slotBase + 16 * (1 + count) < 2 ^ 64) (hosts : Hosts) :
    CheckLeadsTo hosts code slots heap region
      (if 1 + count ≤ slots.size - reservedSlots then body else guard) := by
  obtain ⟨s, hentry, hs⟩ := run_entry hstub hcaller hpos hapart region hosts
  have hsize : s.memory.slots.size = slots.size := by rw [hs.slots, Array.size_modify]
  have henv : s.memory.cell? (s.reg envReg) = some .limit := by
    rw [hs.env, ← hs.heap]
    exact hs.top.apart.cell?_envBase
  have hframe : s.AtFrame 1 0 := ⟨hs.frame, by omega, hs.top.apart.slotsFit⟩
  obtain ⟨t, -, hrun⟩ := run_prologue h hshows hs.rip hframe henv (hs.heap.symm ▸ hwrap) hosts
  rw [hsize] at hrun
  exact ⟨_, (run_add_of_exhausted hentry 3).trans (run_of_native hcaller hrun), rfl⟩

/-- The check leads to one place. -/
theorem CheckLeadsTo.offset_eq {a b : Nat} (hmappable : region.size < mappableSize)
    (hfirst : CheckLeadsTo hosts code slots heap region a)
    (hsecond : CheckLeadsTo hosts code slots heap region b)
    (ha : a ≤ region.size) (hb : b ≤ region.size) : a = b := by
  obtain ⟨s, hs, hrip⟩ := hfirst
  obtain ⟨t, ht, hrip'⟩ := hsecond
  cases hs.symm.trans ht
  exact regionAddress_inj hmappable ha hb (hrip.symm.trans hrip')

/-- Where the check leads to the trap, the next instruction traps. -/
theorem CheckLeadsTo.traps (hcaller : code.fetch callerAddress = none) (hshows : code.Shows region)
    (h : Prologue region count guard body)
    (hleads : CheckLeadsTo hosts code slots heap region guard) :
    CheckTraps hosts code slots heap region guard := by
  obtain ⟨t, hrun, hrip⟩ := hleads
  have hfetch := (fetch_of_readsAt hshows h.mappable h.trap h.inside).1
  rw [← hrip] at hfetch
  have hne : t.rip ≠ callerAddress := by
    intro heq
    rw [heq, hcaller] at hfetch
    cases hfetch
  refine ⟨⟨t, hrun, hrip⟩, ?_⟩
  rw [show 13 + 4 = 13 + 3 + 1 from rfl, run_add_of_exhausted hrun, Machine.run, if_neg hne]
  simp only [Machine.step, hfetch]
  exact ⟨_, rfl⟩

/-- Body and trap are apart, so the check leads to just one of them, by the bound. -/
theorem checkLeadsTo_iff (hstub : code.Shows stubRegion) (hcaller : code.fetch callerAddress = none)
    (hshows : code.Shows region) (h : Prologue region count guard body) (hpos : 0 < slots.size)
    (hapart : Apart (heap.place.runAreas slots.size nativeStackWords))
    (hwrap : heap.place.slotBase + 16 * (1 + count) < 2 ^ 64) (hosts : Hosts) :
    (CheckLeadsTo hosts code slots heap region body ↔ 1 + count ≤ slots.size - reservedSlots) ∧
      (CheckTraps hosts code slots heap region guard ↔
        ¬ 1 + count ≤ slots.size - reservedSlots) := by
  have hleads := checkLeadsTo hstub hcaller hshows h hpos hapart hwrap hosts
  have hinside := h.inside
  have hbody : body = guard + 2 := h.trap.2
  have hapart : CheckLeadsTo hosts code slots heap region body →
      ¬ CheckLeadsTo hosts code slots heap region guard := by
    intro hfirst hsecond
    have := hfirst.offset_eq h.mappable hsecond (by omega) (by omega)
    omega
  by_cases hfits : 1 + count ≤ slots.size - reservedSlots
  · rw [if_pos hfits] at hleads
    exact ⟨iff_of_true hleads hfits,
      iff_of_false (fun htraps => hapart hleads htraps.1) (not_not_intro hfits)⟩
  · rw [if_neg hfits] at hleads
    exact ⟨iff_of_false (fun hbody => hapart hbody hleads) hfits,
      iff_of_true (hleads.traps hcaller hshows h) hfits⟩

end Check

/-! ### Refused calls -/

namespace Env

/-- A call is refused by its checks only. -/
theorem refused_iff (env : Env) (vm : Vm) (natives : Hosts) (budget : Nat) (method : Method)
    (args : List Value) (e : CallError) :
    (env.call vm natives budget method args).outcome = .refused e ↔
      env.checkCall (vm.qualifiedName method.id) method args = .error e := by
  unfold call
  split
  · rename_i e' he'
    simp [he']
  · rename_i code hcode
    rw [hcode]
    split
    · simp
    · split <;> simp [leave]

/-- A refused call changes nothing. -/
theorem env_of_refused {env : Env} {vm : Vm} {natives : Hosts} {budget : Nat} {method : Method}
    {args : List Value} {e : CallError}
    (h : (env.call vm natives budget method args).outcome = .refused e) :
    (env.call vm natives budget method args).env = env := by
  rw [refused_iff] at h
  rw [call, h]

/-- Once the other checks are passed, only the bound of the slot array is left. -/
theorem checkCall_eq {env : Env} {name : String} {method : Method} {region : Region}
    {args : List Value} (hcode : method.code = some region)
    (hlength : args.length = method.signature.paramTypes.length)
    (hargs : env.checkArguments name 0 (args.zip method.signature.paramTypes) = .ok ()) :
    env.checkCall name method args = if env.stackSlots < method.body.frameSlots then
      .error (.stackOverflow name method.body.frameSlots env.stackSlots) else .ok region := by
  simp only [checkCall, hcode, hlength, ne_eq, not_true_eq_false, if_false, hargs]
  by_cases hover : env.stackSlots < method.body.frameSlots
  · rw [if_pos hover, if_pos hover]
    rfl
  · rw [if_neg hover, if_neg hover]
    rfl

/-- The room for frames is what the code of a method may reach from slot one on. -/
theorem frame_fits_iff {env : Env} (hleast : leastSlots ≤ env.slots.size) (count : Nat) :
    1 + count ≤ env.slots.size - reservedSlots ↔ ¬ env.stackSlots < count := by
  unfold leastSlots at hleast
  unfold stackSlots
  omega

end Env

/-! ### A method that passes its arguments on -/

namespace Vm

section Swap

open SlotJit.Bytecode SlotJit.Ir SlotJit.Lowering

/-- The constants of the class. -/
def swapConstants : ConstantPool := .ofList [.methodRef ⟨"q/Main", "f", "(JI)J"⟩]

/-- A package with a method that returns the first of its arguments, and one that calls it with its
own arguments the other way round. -/
def swapDecl : PackageDecl :=
  { name := "q", classes := [
    { name := "Main", constants := swapConstants, methods := [
      { name := "f", descriptor := "(JI)J", access := .staticFlag, maxLocals := 3, maxStack := 2,
        code := [0x1e, 0xad] },
      { name := "g", descriptor := "(IJ)J", access := .staticFlag, maxLocals := 3, maxStack := 3,
        code := [0x1f, 0x1a, 0xb8, 0, 1, 0xad] }] }] }

/-- The method that returns its first argument. -/
def firstMethod : Method :=
  { name := "f", descriptor := "(JI)J", signature := ⟨[.long, .int], some .long⟩,
    access := .staticFlag, id := default, maxLocals := 3, maxStack := 2, bytecode := [0x1e, 0xad] }

/-- The method that calls it. -/
def swapMethod : Method :=
  { name := "g", descriptor := "(IJ)J", signature := ⟨[.int, .long], some .long⟩,
    access := .staticFlag,
    id := { (default : SymbolId) with member := ⟨1, Nat.le_of_ble_eq_true rfl⟩ }, maxLocals := 3,
    maxStack := 3, bytecode := [0x1f, 0x1a, 0xb8, 0, 1, 0xad] }

/-- Their class. -/
def swapOwner : ClassTable :=
  { name := "Main", constants := swapConstants, methods := #[firstMethod, swapMethod] }

/-- Their package. -/
def swapPackage : Package := { index := 0, name := "q", classes := #[swapOwner] }

/-- The tables of the package. -/
def swapContext : Context := { staged := #[swapPackage] }

/-- What the first one is lowered to. -/
def firstBody : Body :=
  { code := [{ kind := .ret (some .long), args := [.slot 0], marks := ⟨true, true⟩ }],
    frameSlots := 5 }

/-- What the second one is lowered to. -/
def swapBody : Body :=
  { code := [
      { kind := .callStatic, dst := some (.slot 6), args := [.symbol default, .slot 1, .slot 0],
        marks := ⟨true, true⟩ },
      { kind := .ret (some .long), args := [.slot 6] }], frameSlots := 7 }

/-- The declarations are staged. -/
theorem stage_swap : (serveAll {} []).stage [swapDecl] = .ok swapContext := by cbv

/-- The call finds its callee. -/
theorem findMethod?_swap : swapContext.findMethod? "q/Main" "f" "(JI)J" = some firstMethod := by cbv

/-- The body of `firstMethod`. -/
theorem lower_first (ctx : Context) : Lowering.lower ctx swapOwner firstMethod = .ok firstBody := by
  have hload : Opcode.ofByte? 0x1e = some ⟨0x1e, "lload_0", 1, fun _ => .load .long 0⟩ := rfl
  have hret : Opcode.ofByte? 0xad = some ⟨0xad, "lreturn", 1, fun _ => .ret (some .long)⟩ := rfl
  simp [firstMethod, swapOwner, Lowering.lower, Stream.scan, split, branchTargets, Located.target?,
    Located.instr, Instr.displacement?, hload, hret]
  simp [lowerAt, lowerInstr, emit, checkLocal, push, pop, popTyped, checkType, typeOf, consume,
    operandOf,
    releaseEntry, OperandStack.push, OperandStack.pop?, OperandStack.releaseEntry,
    OperandStack.resetTo,
    Entry.words, Entry.valueType?, ValueType.words, ValueType.isWide, Located.instr,
    Site.tmpIndex, resolve,
    markBlocks, jumpTargets, markFrom, Kind.isJump, firstBody, List.mapM_cons]

/-- The body of `swapMethod`. -/
theorem lower_swap : Lowering.lower swapContext swapOwner swapMethod = .ok swapBody := by
  have hlong : Opcode.ofByte? 0x1f = some ⟨0x1f, "lload_1", 1, fun _ => .load .long 1⟩ := rfl
  have hint : Opcode.ofByte? 0x1a = some ⟨0x1a, "iload_0", 1, fun _ => .load .int 0⟩ := rfl
  have hinvoke : Opcode.ofByte? 0xb8 =
      some ⟨0xb8, "invokestatic", 3, fun o => .invokeStatic (u16 o)⟩ := rfl
  have hret : Opcode.ofByte? 0xad = some ⟨0xad, "lreturn", 1, fun _ => .ret (some .long)⟩ := rfl
  have hindex : u16 [0, 1] = 1 := by decide
  have hconstant : swapConstants.get? 1 = some (.methodRef ⟨"q/Main", "f", "(JI)J"⟩) := by decide
  have hstatic : firstMethod.access.isStatic = true := by decide
  have hnative : firstMethod.access.isNative = false := by decide
  have hsignature : firstMethod.signature = ⟨[.long, .int], some .long⟩ := rfl
  have hid : firstMethod.id = default := rfl
  simp [swapMethod, swapOwner, Lowering.lower, Stream.scan, split, branchTargets, Located.target?,
    Located.instr, Instr.displacement?, hlong, hint, hinvoke, hret, hindex]
  simp [lowerAt, lowerInstr, lowerInvoke, findMethod?_swap, hindex, hconstant, hstatic, hnative,
    hsignature,
    hid, Descriptor.paramTypes, Descriptor.resultType, FieldType.valueType, Option.mapM, emit,
    checkLocal,
    push, pop, popTyped, checkType, typeOf, consume, operandOf, releaseEntry, pushTmp, takeTmp,
    OperandStack.push, OperandStack.pop?, OperandStack.releaseEntry, OperandStack.release,
    OperandStack.alloc, OperandStack.resetTo, Entry.words, Entry.valueType?, ValueType.words,
    ValueType.isWide, Located.instr, Site.tmpIndex, Site.tmpSlot, resolve, markBlocks, jumpTargets,
    markFrom, Kind.isJump, swapBody, List.mapM_cons, ok_bind]

/-- The lowered methods. -/
def swapBodies : List (SymbolId × Body) := [(firstMethod.id, firstBody), (swapMethod.id, swapBody)]

/-- Both bodies. -/
theorem lowerStaged_swap : lowerStaged swapContext = .ok swapBodies := by
  have howners : stagedOwners swapContext =
      [(swapPackage, swapOwner, firstMethod), (swapPackage, swapOwner, swapMethod)] := by
    decide +kernel
  rw [lowerStaged, howners]
  simp [lower_first, lower_swap]
  rfl

/-- The tables with the bodies. -/
def swapFilled : Context := withBodies swapContext swapBodies

/-- The code of the first one. -/
def firstPieces : List Piece :=
  [.instr (.lea .rax (frameMem 80)),
    .instr (.aluLoad .cmp .qword .rax { base := envReg, disp := 0 }),
    .jump (some .be) 2, .instr .trap, .label 2, .instr (.load .qword .rax (frameMem 0)),
    .instr (.jmpMem (frameMem (-16)))]

/-- The code of the second one. -/
def swapPieces : List Piece :=
  [.instr (.lea .rax (frameMem 112)),
    .instr (.aluLoad .cmp .qword .rax { base := envReg, disp := 0 }),
    .jump (some .be) 3, .instr .trap, .label 3, .instr (.load .qword .rax (frameMem 16)),
    .instr (.store .qword (frameMem 128) .rax), .instr (.load .dword .rax (frameMem 0)),
    .instr (.store .dword (frameMem 160) .rax), .instr (.aluImm .add .qword frameReg 128),
    .instr (.leaRip .rax 16), .instr (.store .qword (frameMem (-16)) .rax), .loadCode default,
    .instr (.jmpReg .rax), .instr (.aluImm .sub .qword frameReg 128),
    .instr (.store .qword (frameMem 96) .rax), .instr (.load .qword .rax (frameMem 96)),
    .instr (.jmpMem (frameMem (-16)))]

/-- The code of both methods. -/
theorem bodyPieces_swap :
    bodyPieces ⟨swapFilled, (serveAll {} []).nativeAddress?, 5⟩ firstBody.code = .ok firstPieces ∧
      bodyPieces ⟨swapFilled, (serveAll {} []).nativeAddress?, 7⟩ swapBody.code =
        .ok swapPieces := by
  simp only [bodyPieces, instructionPieces, labelAt, contains_branchLabels, firstBody, swapBody]
  decide +kernel

/-- No method calls one without a body. -/
theorem not_callsUncompiled_swap (entry : SymbolId × Body) (hentry : entry ∈ swapBodies) :
    ¬ CallsUncompiled swapFilled entry.2.code := by
  rintro ⟨inst, hinst, hkind, m, hhead, hfound, huncompiled⟩
  have hid : m.id = default := by
    simp only [swapBodies, List.mem_cons, List.not_mem_nil, or_false] at hentry
    rcases hentry with rfl | rfl
    · cases List.mem_singleton.mp hinst
      cases hkind
    · simp only [swapBody, List.mem_cons, List.not_mem_nil, or_false] at hinst
      rcases hinst with rfl | rfl
      · exact (Operand.symbol.inj (Option.some.inj hhead)).symm
      · cases hkind
  rw [hid] at hfound
  have hcallee : swapFilled.method? default = some { firstMethod with body := firstBody } := rfl
  cases hcallee.symm.trans hfound
  cases huncompiled

/-- Both methods are published with their code. -/
theorem exists_load_swap : ∃ first swap,
    (serveAll {} [.load [swapDecl]]).method? firstMethod.id =
        some { firstMethod with body := firstBody, code := some first } ∧
      (serveAll {} [.load [swapDecl]]).method? swapMethod.id =
        some { swapMethod with body := swapBody, code := some swap } := by
  obtain ⟨hfirst, hswap⟩ := bodyPieces_swap
  obtain ⟨compiled, relocations, alloc, hcompile, -, -⟩ :=
    @exists_compileMethod swapFilled (serveAll {} []).nativeAddress? { next := Allocator.codeBase }
      firstMethod.id { firstMethod with body := firstBody } _ rfl hfirst (by decide) (by decide) rfl
      (by decide) (by decide)
  obtain ⟨hlimit, hroom⟩ := room_of_compileMethod hcompile rfl
  obtain ⟨compiled', relocations', alloc', hcompile', -, -⟩ :=
    @exists_compileMethod swapFilled (serveAll {} []).nativeAddress? alloc swapMethod.id
      { swapMethod with body := swapBody } _ rfl hswap (by decide) (by decide) hlimit (by decide)
      (Nat.le_trans (Nat.add_le_add_right hroom _) (by decide))
  have hcallee : swapFilled.method? firstMethod.id = some { firstMethod with body := firstBody } :=
    rfl
  have hcaller : swapFilled.method? swapMethod.id = some { swapMethod with body := swapBody } := rfl
  have hcompiles := Compiles.cons hcallee hcompile (.cons hcaller hcompile' (.nil alloc'))
  obtain ⟨linked, vm, h, -⟩ := exists_loads {} [] (by decide) stage_swap lowerStaged_swap hcompiles
    not_callsUncompiled_swap
  have hvm : serveAll {} [.load [swapDecl]] = vm := serve_load_of_none h.load_eq
  have hindexed := indexed_of_reachable (reachable_serveAll {} [])
  have hfound : ∀ m, swapContext.method? m.id = some m →
      vm.method? m.id = some (finish swapBodies linked m) := by
    intro m hm
    rw [h.method?_of_staged hindexed (Nat.not_lt_zero _), hm, Option.map_some]
  obtain ⟨c, rest, hmethods, hc, hrest⟩ := List.map_eq_cons_iff.mp h.ids
  obtain ⟨c', hlast, hc'⟩ := List.map_eq_singleton_iff.mp hrest
  have hentries : codeEntries linked = [(firstMethod.id, c.code), (swapMethod.id, c'.code)] := by
    rw [codeEntries, hmethods, hlast, List.map_cons, List.map_singleton, hc, hc']
  refine ⟨c.code, c'.code, ?_, ?_⟩
  · rw [hvm, hfound firstMethod rfl, finish, hentries]
    rfl
  · rw [hvm, hfound swapMethod rfl, finish, hentries]
    rfl

end Swap

end Vm

/-- A place with the slots at a canonical address. -/
def blankPlace : Machine.Place :=
  { Machine.Place.ofSeed 0 0 with slotBase := 0x700000000000, slotBase_lt := by decide }

/-- An environment of so many slots there, and no arrays. -/
def blankEnv (size : Nat) : Env :=
  { slots := Array.replicate size {}, heap := { place := blankPlace } }

/-- Its areas are apart. -/
theorem apart_blankPlace {size : Nat} (h : size ≤ 2 ^ 20) :
    Apart (blankPlace.runAreas size nativeStackWords) := by
  have hslot : blankPlace.slotBase = 0x700000000000 := rfl
  have henv : blankPlace.envBase = 0x800000000000000 := rfl
  have hstack : blankPlace.stackBase = 0x1000000000000000 := rfl
  constructor
  · simp [Machine.Place.runAreas, nativeStackWords, hslot, henv, hstack]
    omega
  · simp [Machine.Place.runAreas, nativeStackWords, hslot, henv, hstack]
    omega

/-! ### Both checks -/

open Vm in
/-- The two checks of the slot array are of the same bound. Once code, number and types of the
arguments are accepted, a call to a published method is refused if and only if the check of the
method would trap behind the stub, with whatever the slots hold; and it is not refused if and only
if that check leads to the body. A refused call changes nothing. The slot array has its least size
and may be anywhere as long as it does not meet the environment or the native stack and no address
wraps around, be it that of a slot or that of the end of the frame. -/
theorem stack_checks_agree (config : Config) (requests : List Request) {id : SymbolId}
    {method : Method} {region : Region}
    (hmethod : (serveAll config requests).method? id = some method)
    (hcode : method.code = some region) (env : Env) (hleast : leastSlots ≤ env.slots.size)
    (hapart : Apart (env.heap.place.runAreas env.slots.size nativeStackWords))
    (hwrap : env.heap.place.slotBase + 16 * (1 + method.body.frameSlots) < 2 ^ 64)
    (natives : Hosts) :
    (∃ guard body, Prologue region method.body.frameSlots guard body ∧
      ∀ args : List Value, args.length = method.signature.paramTypes.length →
        env.checkArguments ((serveAll config requests).qualifiedName method.id) 0
          (args.zip method.signature.paramTypes) = .ok () →
        ∀ (budget : Nat) (slots : Array Slot), slots.size = env.slots.size →
          (∀ e, (env.call (serveAll config requests) natives budget method args).outcome =
              .refused e ↔
            e = .stackOverflow ((serveAll config requests).qualifiedName method.id)
              method.body.frameSlots env.stackSlots ∧
            CheckTraps (hosts natives) (serveAll config requests).code slots env.heap region
              guard) ∧
          ((∀ e, (env.call (serveAll config requests) natives budget method args).outcome ≠
              .refused e) ↔
            CheckLeadsTo (hosts natives) (serveAll config requests).code slots env.heap region
              body)) ∧
    ∀ (budget : Nat) (called : Method) (args : List Value) (e : CallError),
      (env.call (serveAll config requests) natives budget called args).outcome = .refused e →
        (env.call (serveAll config requests) natives budget called args).env = env := by
  have hlaid := laid config requests
  obtain ⟨-, site, pieces, start, offset, hinstalled⟩ :=
    hlaid.methods id method region hmethod hcode
  have hprologue := hinstalled.prologue
  refine ⟨⟨offset 3, offset 4, hprologue, fun args hlength hargs budget slots hsize => ?_⟩,
    fun budget called args e he => Env.env_of_refused he⟩
  have hpos : 0 < slots.size := by
    unfold leastSlots at hleast
    omega
  obtain ⟨hbody, htraps⟩ := checkLeadsTo_iff hlaid.stub hlaid.caller hinstalled.shows hprologue hpos
    (hsize.symm ▸ hapart) hwrap (hosts natives)
  rw [hsize, Env.frame_fits_iff hleast] at hbody htraps
  simp only [ne_eq, Env.refused_iff, Env.checkCall_eq hcode hlength hargs, hbody, htraps]
  by_cases hover : env.stackSlots < method.body.frameSlots
  · simp [hover, eq_comm]
  · simp [hover]

open Vm in
/-- A frame of seven slots does not fit 264 slots, and fits 265. -/
theorem stack_checks_agree_swap : ∃ method region,
    (serveAll {} [.load [swapDecl]]).method? swapMethod.id = some method ∧
      method.code = some region ∧
      (∃ guard body, Prologue region 7 guard body ∧
        ((blankEnv 264).call (serveAll {} [.load [swapDecl]]) HostFn.table 100 method
            [.int 3, .long 4]).outcome =
          .refused (.stackOverflow ((serveAll {} [.load [swapDecl]]).qualifiedName method.id) 7 6) ∧
        CheckTraps (hosts HostFn.table) (serveAll {} [.load [swapDecl]]).code (blankEnv 264).slots
          (blankEnv 264).heap region guard) ∧
      ∃ guard body, Prologue region 7 guard body ∧
        (∀ e, ((blankEnv 265).call (serveAll {} [.load [swapDecl]]) HostFn.table 100 method
          [.int 3, .long 4]).outcome ≠ .refused e) ∧
        CheckLeadsTo (hosts HostFn.table) (serveAll {} [.load [swapDecl]]).code (blankEnv 265).slots
          (blankEnv 265).heap region body := by
  obtain ⟨-, region, -, hmethod⟩ := exists_load_swap
  let method : Method := { swapMethod with body := swapBody, code := some region }
  have hsize : ∀ n, (blankEnv n).slots.size = n := fun n => Array.size_replicate
  have hslots : ∀ n, (blankEnv n).stackSlots = n - 257 - 1 := fun n => by
    rw [Env.stackSlots, hsize]
    rfl
  have hchecks : ∀ n ≥ 259, n ≤ 2 ^ 20 → _ := fun n hleast hmost =>
    (stack_checks_agree {} [.load [swapDecl]] hmethod rfl (blankEnv n) ((hsize n).symm ▸ hleast)
      ((hsize n).symm ▸ apart_blankPlace hmost)
      (show 0x700000000000 + 16 * (1 + 7) < 2 ^ 64 by decide) HostFn.table).1
  refine ⟨method, region, hmethod, rfl, ?_, ?_⟩
  · obtain ⟨guard, body, hprologue, hchecks⟩ := hchecks 264 (by decide) (by decide)
    have hchecked := (hchecks [.int 3, .long 4] rfl rfl 100 (blankEnv 264).slots rfl).1
    rw [hslots] at hchecked
    have hover : (blankEnv 264).stackSlots < 7 := hslots 264 ▸ (by decide : 6 < 7)
    have hrefused :=
      (Env.refused_iff (blankEnv 264) (serveAll {} [.load [swapDecl]]) HostFn.table 100
        method [.int 3, .long 4] _).mpr ((Env.checkCall_eq rfl rfl rfl).trans (if_pos hover))
    rw [hslots] at hrefused
    exact ⟨guard, body, hprologue, hrefused, ((hchecked _).mp hrefused).2⟩
  · obtain ⟨guard, body, hprologue, hchecks⟩ := hchecks 265 (by decide) (by decide)
    have hchecked := (hchecks [.int 3, .long 4] rfl rfl 100 (blankEnv 265).slots rfl).2
    have hadmitted : ∀ e, ((blankEnv 265).call (serveAll {} [.load [swapDecl]]) HostFn.table 100
        method [.int 3, .long 4]).outcome ≠ .refused e := by
      intro e
      rw [ne_eq, Env.refused_iff, Env.checkCall_eq rfl rfl rfl,
        if_neg (hslots 265 ▸ (by decide : ¬ 7 < 7))]
      rintro ⟨⟩
    exact ⟨guard, body, hprologue, hadmitted, hchecked.mp hadmitted⟩

end SlotJit.Engine

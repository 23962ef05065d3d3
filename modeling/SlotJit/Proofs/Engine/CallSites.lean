import SlotJit.Proofs.Codegen.NativeCalls
import SlotJit.Proofs.Codegen.Reach
import SlotJit.Proofs.Engine.Arguments
import SlotJit.Proofs.Engine.StackBound

/-!
# Calls between compiled methods

The code of a call copies the arguments to the slots of the callee's parameters, in a frame that
starts one slot above the caller's. It leaves in the slot between them the address of the
instruction behind the jump, and jumps to the callee. When the callee jumps back there, the frame
base is set to the caller's frame again and the result is stored.

So a method cannot tell whether it was called from outside or by compiled code: it receives the same
arguments in the same places of its frame, and its result is taken from the same register at the
same type.

## Main results

* `leads_passArguments`: how arguments get to the callee's frame.
* `run_toCallee`, `run_fromCallee`: the call and the return.
* `entries_agree`: both ways to enter a method.
-/

namespace SlotJit.Codegen

open SlotJit.CodeMemory SlotJit.Machine SlotJit.Semantics SlotJit.X64

/-! ### Code in place -/

namespace Fragment

variable {code : CodeMap} {region : Region} {part : List Piece} {place : Nat → Nat}

/-- Straight code in the middle of a fragment is executed. -/
theorem run_leads (h : Fragment code region part place) {middle : List Piece} {i : Nat}
    (hmiddle : middle <+: part.drop i) {s t : State} (hleads : Leads middle s t) (hosts : Hosts) :
    run (NativeMachine.step hosts code region) middle.length
      { s with rip := regionAddress region (place i) } =
      .next { t with rip := regionAddress region (place (i + middle.length)) } := by
  obtain ⟨pieces, offset, k, hplaced, hpart, hplace⟩ := h.placed
  have hinside : middle <+: pieces.drop (k + i) := by
    rw [← List.drop_drop]
    exact hmiddle.trans (hpart.drop i)
  rw [hplace, hplace, ← Nat.add_assoc]
  exact Codegen.run_leads h.shows hplaced hleads hinside hosts

/-- An instruction ends where the next piece is. -/
theorem place_succ (h : Fragment code region part place) {i : Nat} {instr : Instr}
    (hi : part[i]? = some (.instr instr)) : place (i + 1) = place i + (encode instr).length := by
  obtain ⟨pieces, offset, k, hplaced, hpart, hplace⟩ := h.placed
  rw [hplace, hplace, ← Nat.add_assoc]
  exact (hplaced.instr _ _ (getElem?_of_isPrefix_drop hpart hi)).2

end Fragment

end SlotJit.Codegen

namespace SlotJit.Engine

open SlotJit.CodeMemory SlotJit.Codegen SlotJit.Ir SlotJit.Machine SlotJit.Semantics SlotJit.Tables
  SlotJit.X64

/-! ### Passing arguments -/

/-- What the slots from a frame base on hold. -/
def frameAt (slots : Array Slot) (base : Nat) : Frame := fun i => (slots[base + i]?).getD {}

/-- A frame in memory is seen there. -/
theorem sees_frameAt {s : State} {base count : Nat} (h : s.AtFrame base count) :
    s.Sees base count (frameAt s.memory.slots base) := by
  have hfits := h.fits
  refine ⟨h, fun i hi => ?_⟩
  rw [frameAt, Array.getElem?_eq_getElem (by omega), Option.getD_some]

/-- A frame that is seen is in memory. -/
theorem frameAt_eq {s : State} {base count : Nat} {frame : Frame} (h : s.Sees base count frame)
    {i : Nat} (hi : i < count) : frameAt s.memory.slots base i = frame i := by
  rw [frameAt, h.slots i hi, Option.getD_some]

/-- An operand in a frame has the value that it has where more slots are seen. -/
theorem readOperand_frameAt {s : State} {base count : Nat} {frame : Frame}
    (h : s.Sees base count frame) {operand : Operand}
    (hin : ∀ index, operand = .slot index → index < count) (ty : ValueType) :
    readOperand (frameAt s.memory.slots base) operand ty = readOperand frame operand ty := by
  cases operand with
  | slot index =>
      rw [readOperand, readOperand, Frame.get, Frame.get, frameAt_eq h (hin index rfl)]
  | branch | flags | int | float | double | symbol => cases ty <;> rfl

/-- Registers but the scratch registers and all memory but slots are as they were. -/
structure OnlySlots (s t : State) : Prop where
  regs : ∀ r, r ≠ .rax → r ≠ .rcx → t.reg r = s.reg r
  heap : t.memory.heap = s.memory.heap
  size : t.memory.slots.size = s.memory.slots.size

/-- Writing slots twice. -/
theorem OnlySlots.trans {s t u : State} (h : OnlySlots s t) (h' : OnlySlots t u) : OnlySlots s u :=
  ⟨fun r hrax hrcx => (h'.regs r hrax hrcx).trans (h.regs r hrax hrcx), h'.heap.trans h.heap,
    h'.size.trans h.size⟩

section Passing

variable {base count : Nat} {frame : Frame} {s : State} {inst : Inst} {pieces : List Piece}
  {outgoing : Int32}

/-- One argument. -/
theorem leads_passArgument (hs : s.Sees base count frame) {operand : Operand} {ty : ValueType}
    {v : Semantics.Value} (hin : ∀ index, operand = .slot index → index < count)
    (hread : readOperand frame operand ty = some v) {index : Nat} {disp : Int32}
    (hdisp : disp.toInt = 16 * (count + 1 + index : Nat))
    (hroom : base + count + 1 + index < s.memory.slots.size)
    (h : copyTo inst ty operand disp = .ok pieces) : ∃ t, OnlySlots s t ∧ t.Sees base count frame ∧
      t.memory.slots = s.memory.slots.modify (base + count + 1 + index) v.store ∧
      Leads pieces s t := by
  have hsmall := disp.toInt_lt
  have hwide : s.AtFrame base (count + 1 + index + 1) := ⟨hs.rsi, by omega, hs.slotsFit⟩
  obtain ⟨t, hbeside, -, hleads⟩ := leads_copyTo (sees_frameAt hwide) (by omega)
    (show count + 1 + index < count + 1 + index + 1 by omega)
    (fun i hi => Nat.lt_of_lt_of_le (hin i hi) (by omega))
    ((readOperand_frameAt hs hin ty).trans hread) (slotDisp_of_toInt hdisp) h
  let copied := t.put (base + (count + 1 + index)) v
  have hslots : copied.memory.slots = s.memory.slots.modify (base + count + 1 + index) v.store := by
    show t.memory.slots.modify _ _ = _
    rw [hbeside.memory, ← Nat.add_assoc, ← Nat.add_assoc]
  have hsize : copied.memory.slots.size = s.memory.slots.size := by rw [hslots, Array.size_modify]
  have hheap : copied.memory.heap = s.memory.heap := by
    show t.memory.heap = _
    rw [hbeside.memory]
  refine ⟨copied, ⟨hbeside.regs, hheap, hsize⟩,
    ⟨⟨?_, hsize ▸ hs.fits, hs.slotsFit.congr (by rw [hheap]) hsize⟩, fun i hi => ?_⟩,
    hslots, hleads⟩
  · rw [Memory.slotAddress, hheap]
    exact (hbeside.regs frameReg (by decide) (by decide)).trans hs.rsi
  · rw [hslots, Array.getElem?_modify, if_neg (by omega), hs.slots i hi]

/-- All arguments. -/
theorem leads_passArguments (hs : s.Sees base count frame)
    (houtgoing : outgoing.toInt = 16 * (count + 1 : Nat))
    {args : List Value} {operands : List Operand} {locals : List Nat}
    (hread : readOperands frame operands (args.map Value.valueType) = some (args.map Value.inSlot))
    (hin : ∀ index, .slot index ∈ operands → index < count) (hlength : locals.length = args.length)
    (hsmall : ∀ index ∈ locals, index < 2 ^ 31)
    (hroom : ∀ index ∈ locals, base + count + 1 + index < s.memory.slots.size)
    (hnodup : locals.Nodup)
    (h : passArguments inst outgoing (operands.zip ((args.map Value.valueType).zip locals)) =
      .ok pieces) :
    ∃ t, OnlySlots s t ∧ t.Sees base count frame ∧
      Written (base + count + 1) (args.zip locals) s.memory.slots t.memory.slots ∧
      Leads pieces s t := by
  induction args generalizing operands locals pieces s with
  | nil =>
      rw [List.map_nil, List.zip_nil_left, List.zip_nil_right] at h
      cases h
      exact ⟨s, ⟨fun _ _ _ => rfl, rfl, rfl⟩, hs, .nil _ _, [], rfl, .nil s⟩
  | cons arg args ih =>
      cases locals with
      | nil => cases hlength
      | cons index locals =>
      cases operands with
      | nil => cases hread
      | cons operand operands =>
      rw [List.map_cons, List.map_cons, readOperands] at hread
      split at hread
      case _ v vs hfirst hrest =>
        cases hread
        obtain ⟨indexDisp, hindexDisp, h⟩ := bind_eq_ok.mp h
        obtain ⟨disp, hdisp, h⟩ := bind_eq_ok.mp h
        obtain ⟨copied, hcopied, h⟩ := bind_eq_ok.mp h
        obtain ⟨others, hothers, h⟩ := bind_eq_ok.mp h
        cases h
        have hvalue := (toInt_slotDisp (hsmall index List.mem_cons_self) hindexDisp).1
        have htarget : disp.toInt = 16 * (count + 1 + index : Nat) := by
          rw [toInt_of_displacement hdisp, houtgoing, hvalue]
          omega
        rw [List.nodup_cons] at hnodup
        have hfirstRoom := hroom index List.mem_cons_self
        obtain ⟨t, honly, ht, hslots, hleads⟩ := leads_passArgument hs
          (fun i hi => hin i (hi ▸ List.mem_cons_self)) hfirst htarget hfirstRoom hcopied
        obtain ⟨u, honly', hu, hwritten, hleads'⟩ :=
          ih ht hrest (fun i hi => hin i (List.mem_cons_of_mem _ hi))
            (Nat.succ.inj hlength) (fun i hi => hsmall i (List.mem_cons_of_mem _ hi))
            (fun i hi => honly.size ▸ hroom i (List.mem_cons_of_mem _ hi)) hnodup.2 hothers
        rw [hslots] at hwritten
        have hnew : index ∉ (args.zip locals).map Prod.snd := by
          rw [List.map_snd_zip (Nat.le_of_eq (Nat.succ.inj hlength))]
          exact hnodup.1
        have hstored : ∀ slot, Semantics.Value.ofSlot arg.valueType (arg.inSlot.store slot) =
            arg.inSlot := by
          intro slot
          rw [← arg.type_inSlot, Semantics.Value.ofSlot_store]
        exact ⟨u, honly.trans honly', hu, hwritten.cons hstored hfirstRoom hnew,
          hleads.append hleads'⟩
      case _ => cases hread

end Passing

/-! ### The call and the return -/

/-- The code of a call once arguments are passed, with the entry of the callee filled in. -/
def callSequence (outgoing : Int32) (entry : UInt64) : List Piece :=
  [.instr (.aluImm .add .qword frameReg outgoing), .instr (.leaRip .rax 16),
    .instr (.store .qword (frameMem (-slotSize)) .rax), .instr (.movImm64 .rax entry.toInt64),
    .instr (.jmpReg .rax), .instr (.aluImm .sub .qword frameReg outgoing)]

/-- The address of a slot, from that of another. -/
theorem slotAddress_add (m : Memory) {disp : Int32} {k : Nat} (hdisp : disp.toInt = 16 * k)
    (base : Nat) : m.slotAddress base + Word.ofInt32 disp = m.slotAddress (base + k) := by
  rw [Memory.slotAddress, Memory.slotAddress, Word.ofInt32_eq, hdisp,
    show (16 * k : Int) = ((16 * k : Nat) : Int) by omega, BitVec.ofInt_natCast, ← BitVec.ofNat_add,
    Nat.add_assoc, Nat.mul_add]

section Call

variable {code : CodeMap} {region : Region} {passed result : List Piece} {place : Nat → Nat}
  {outgoing : Int32} {entry : UInt64} {base count : Nat}

/-- The pieces of the call. -/
theorem getElem?_callSequence (k : Nat) (hk : k < 6) :
    (passed ++ callSequence outgoing entry ++ result)[passed.length + k]? =
      (callSequence outgoing entry)[k]? := by
  rw [List.append_assoc, List.getElem?_append_right (Nat.le_add_right _ _), Nat.add_sub_cancel_left,
    List.getElem?_append_left hk]

/-- The address to go on at is the end of the jump to the callee. -/
theorem place_next
    (h : Fragment code region (passed ++ callSequence outgoing entry ++ result) place) :
    place (passed.length + 5) = place (passed.length + 2) + 16 := by
  rw [h.place_succ (getElem?_callSequence 4 (by decide)),
    h.place_succ (getElem?_callSequence 3 (by decide)),
    h.place_succ (getElem?_callSequence 2 (by decide)), Nat.add_assoc, Nat.add_assoc]
  rfl

/-- From the last argument to the callee, whose frame starts one slot above the caller's. -/
theorem run_toCallee
    (h : Fragment code region (passed ++ callSequence outgoing entry ++ result) place)
    (houtgoing : outgoing.toInt = 16 * (count + 1 : Nat)) {s : State}
    (hframe : s.reg frameReg = s.memory.slotAddress base)
    (hroom : base + count < s.memory.slots.size) (hfit : s.memory.SlotsFit) (hosts : Hosts) :
    ∃ t, Semantics.run (NativeMachine.step hosts code region) 5
        { s with rip := regionAddress region (place passed.length) } = .next t ∧
      t.rip = entry.toBitVec ∧ t.reg frameReg = t.memory.slotAddress (base + count + 1) ∧
      t.memory.heap = s.memory.heap ∧
      t.memory.slots = s.memory.slots.modify (base + count)
        (Semantics.Value.long (regionAddress region (place (passed.length + 5)))).store := by
  let address := fun k => regionAddress region (place (passed.length + k))
  obtain ⟨flags, hadd⟩ := execute_add s frameReg outgoing
  let raised := State.setReg { s with flags } frameReg (s.reg frameReg + Word.ofInt32 outgoing)
  let addressed := raised.setReg .rax (address 5)
  let stored := addressed.put (base + count) (.long (address 5))
  let entered := stored.setReg .rax entry.toBitVec
  have hraised : raised.reg frameReg = s.memory.slotAddress (base + count + 1) := by
    rw [State.reg_setReg_same, hframe, slotAddress_add _ houtgoing, ← Nat.add_assoc]
  have hadded : NativeMachine.step hosts code region { s with rip := address 0 } =
      .next { raised with rip := address 1 } := by
    refine (h.step_instr (getElem?_callSequence 0 (by decide)) Instr.noConfusion hosts s).trans ?_
    rw [hadd]
    rfl
  have hnext : (address 2).add (Word.ofInt32 16) = address 5 := by
    show regionAddress region _ + BitVec.ofNat 64 16 = _
    rw [regionAddress_add, ← place_next h]
  have hlea : NativeMachine.step hosts code region { raised with rip := address 1 } =
      .next { addressed with rip := address 2 } := by
    refine (h.step_instr (getElem?_callSequence 1 (by decide)) Instr.noConfusion hosts
      raised).trans ?_
    show Step.next
      (State.setReg { raised with rip := address 2 } .rax ((address 2).add (Word.ofInt32 16))) = _
    rw [hnext]
    rfl
  have hstore : NativeMachine.step hosts code region { addressed with rip := address 2 } =
      .next { stored with rip := address 3 } := by
    refine (h.step_instr (getElem?_callSequence 2 (by decide)) Instr.noConfusion hosts
      addressed).trans ?_
    have hbelow : addressed.reg frameReg = addressed.memory.slotAddress (base + count + 1) :=
      (State.reg_setReg_of_ne _ _ _ (by decide)).trans hraised
    rw [execute_storeBelow hbelow hroom hfit,
      show addressed.reg .rax = address 5 from State.reg_setReg_same _ _ _]
    rfl
  have hload : NativeMachine.step hosts code region { stored with rip := address 3 } =
      .next { entered with rip := address 4 } :=
    h.step_instr (getElem?_callSequence 3 (by decide)) Instr.noConfusion hosts stored
  have hjump : NativeMachine.step hosts code region { entered with rip := address 4 } =
      .next { entered with rip := entry.toBitVec } := by
    refine (h.step_instr (getElem?_callSequence 4 (by decide)) Instr.noConfusion hosts
      entered).trans ?_
    rw [← show entered.reg .rax = entry.toBitVec from State.reg_setReg_same _ _ _]
    rfl
  refine ⟨{ entered with rip := entry.toBitVec }, ?_, rfl, ?_, rfl, rfl⟩
  · exact (run_succ_of_next hadded 4).trans
      ((run_succ_of_next hlea 3).trans ((run_succ_of_next hstore 2).trans
      ((run_succ_of_next hload 1).trans (run_succ_of_next hjump 0))))
  · show entered.reg frameReg = _
    rw [State.reg_setReg_of_ne _ _ _ (by decide), State.reg_put,
      State.reg_setReg_of_ne _ _ _ (by decide), hraised]
    rfl

/-- The result of a call is stored, if there is one. -/
structure TakesResult (inst : Inst) (resultType : Option ValueType) (base : Nat)
    (s t : State) : Prop where
  frame : t.reg frameReg = t.memory.slotAddress base
  heap : t.memory.heap = s.memory.heap
  absent : resultType = none → t.memory.slots = s.memory.slots
  stored : ∀ ty, resultType = some ty → ∃ dst, inst.dst = some (.slot dst) ∧
    t.memory.slots =
    s.memory.slots.modify (base + dst) (Semantics.Value.ofBits ty (s.reg .rax)).store

/-- A result goes where the call wants it. -/
theorem leads_storeResult {inst : Inst} {callee : Method} (hcount : count < 2 ^ 31)
    (hin : InFrame count inst) (hresult : storeResult inst callee = .ok result) {s : State}
    (hs : s.AtFrame base count) :
    ∃ t, Leads result s t ∧ TakesResult inst callee.signature.resultType base s t := by
  unfold storeResult at hresult
  cases htype : callee.signature.resultType with
  | none =>
      rw [htype] at hresult
      cases hresult
      exact ⟨s, ⟨[], rfl, .nil s⟩, hs.rsi, rfl, fun _ => rfl,
        fun _ hty => absurd hty.symm (Option.some_ne_none _)⟩
  | some ty =>
      rw [htype] at hresult
      obtain ⟨dst, hdst⟩ := dst_of_store hresult
      refine ⟨_, leads_store (sees_frameAt hs) hcount hdst (hin.dst dst hdst) hresult, hs.rsi, rfl,
        fun hnone => absurd hnone (Option.some_ne_none ty), fun ty' hty => ⟨dst, hdst, ?_⟩⟩
      cases hty
      rfl

/-- From where the callee returns to the end of the code: the frame base is the caller's again and
the result is stored. -/
theorem run_fromCallee
    (h : Fragment code region (passed ++ callSequence outgoing entry ++ result) place)
    (houtgoing : outgoing.toInt = 16 * (count + 1 : Nat)) {inst : Inst} {callee : Method}
    (hcount : count < 2 ^ 31) (hin : InFrame count inst)
    (hresult : storeResult inst callee = .ok result)
    {s : State} (hrip : s.rip = regionAddress region (place (passed.length + 5)))
    (hframe : s.reg frameReg = s.memory.slotAddress (base + count + 1))
    (hfits : base + count ≤ s.memory.slots.size) (hfit : s.memory.SlotsFit) (hosts : Hosts) :
    ∃ (n : Nat) (t : State), Semantics.run (NativeMachine.step hosts code region) n s =
      .next { t with
        rip := regionAddress region
          (place (passed ++ callSequence outgoing entry ++ result).length) } ∧
      TakesResult inst callee.signature.resultType base s t := by
  obtain ⟨flags, hsub⟩ := execute_sub s frameReg outgoing
  let lowered := State.setReg { s with flags } frameReg (s.reg frameReg - Word.ofInt32 outgoing)
  have hlowered : lowered.AtFrame base count := by
    refine ⟨?_, hfits, hfit⟩
    rw [State.reg_setReg_same, hframe, Nat.add_assoc, ← slotAddress_add _ houtgoing]
    exact BitVec.add_sub_cancel _ _
  obtain ⟨t, hleads, htakes⟩ := leads_storeResult hcount hin hresult hlowered
  have hmiddle : [.instr (.aluImm .sub .qword frameReg outgoing)] ++ result <+:
      (passed ++ callSequence outgoing entry ++ result).drop (passed.length + 5) := by
    rw [List.append_assoc, List.drop_length_add_append]
    exact List.prefix_refl _
  have hrun := h.run_leads hmiddle ((Leads.single hsub).append hleads) hosts
  have hstart : { s with rip := regionAddress region (place (passed.length + 5)) } = s := by
    rw [← hrip]
  have hend :
      passed.length + 5 + ([Piece.instr (.aluImm .sub .qword frameReg outgoing)] ++ result).length =
      (passed ++ callSequence outgoing entry ++ result).length := by
    simp [callSequence]
    omega
  rw [hstart, hend] at hrun
  have hrax : lowered.reg .rax = s.reg .rax := State.reg_setReg_of_ne _ _ _ (by decide)
  exact ⟨_, t, hrun, htakes.frame, htakes.heap, htakes.absent, hrax ▸ htakes.stored⟩

end Call

/-! ### Call sites -/

/-- What the template of a call of a compiled method puts together. -/
theorem callStaticTemplate_eq_ok {site : Codegen.Site} {inst : Inst} {part : List Piece}
    (h : callStaticTemplate site inst = .ok part) :
    ∃ id callee operands disp outgoing passed result, inst.args = .symbol id :: operands ∧
      site.context.method? id = some callee ∧ operands.length = callee.signature.paramTypes.length ∧
      slotDisp site.frameSlots = .ok disp ∧ displacement (disp.toInt + slotSize.toInt) =
        .ok outgoing ∧
      passArguments inst outgoing
        (operands.zip (callee.signature.paramTypes.zip callee.signature.paramLocals)) = .ok passed ∧
      storeResult inst callee = .ok result ∧
      part = passed ++ [.instr (.aluImm .add .qword frameReg outgoing), .instr (.leaRip .rax 16),
        .instr (.store .qword (frameMem (-slotSize)) .rax), .loadCode callee.id,
          .instr (.jmpReg .rax),
        .instr (.aluImm .sub .qword frameReg outgoing)] ++ result := by
  obtain ⟨callee, hcallee, h⟩ := bind_eq_ok.mp h
  obtain ⟨id, hhead, hmethod⟩ := calleeOf_eq_ok hcallee
  obtain ⟨operands, hargs⟩ : ∃ operands, inst.args = .symbol id :: operands :=
    List.head?_eq_some_iff.mp hhead
  simp only at h
  split at h
  · cases h
  rename_i hlength
  rw [hargs, List.drop_one, List.tail_cons] at hlength h
  obtain ⟨disp, hdisp, h⟩ := bind_eq_ok.mp h
  obtain ⟨outgoing, houtgoing, h⟩ := bind_eq_ok.mp h
  obtain ⟨passed, hpassed, h⟩ := bind_eq_ok.mp h
  obtain ⟨result, hresult, h⟩ := bind_eq_ok.mp h
  cases h
  exact ⟨id, callee, operands, disp, outgoing, passed, result, hargs, hmethod,
    not_not.mp hlength, hdisp, houtgoing, hpassed, hresult, rfl⟩

/-- Straight code has nothing to fill in. -/
theorem map_fill_of_plain {code : List Piece} (h : Plain code)
    (address : SymbolId → Option UInt64) : code.map (Piece.fill address) = code := by
  obtain ⟨instrs, rfl⟩ := h
  rw [List.map_map]
  rfl

/-- A label has nothing to fill in. -/
theorem map_fill_labelAt (labels : Std.HashSet Nat) (index : Nat)
    (address : SymbolId → Option UInt64) :
    (labelAt labels index).map (Piece.fill address) = labelAt labels index := by
  unfold labelAt
  split <;> rfl

namespace Vm

variable {vm : Vm} {site : Codegen.Site} {caller method : Method} {callerRegion region : Region}
  {pieces : List Piece} {start offset : Nat → Nat} {k : Nat} {inst : Inst} {id : SymbolId}
  {operands : List Operand}

/-- The code of an instruction of a published method, with the entries of callees filled in. -/
theorem Installed.exists_fragment (h : vm.Installed site caller callerRegion pieces start offset)
    (hinst : caller.body.code[k]? = some inst) :
    ∃ fresh part place, template site fresh inst = .ok part ∧
      Fragment vm.code callerRegion (part.map (Piece.fill vm.codeAddress?)) place ∧
      place 0 = offset (start k) ∧ place part.length = offset (start (k + 1)) := by
  obtain ⟨fresh, part, htemplate, hblock, hnext⟩ := h.blocks.block k inst hinst
  have hfilled := hblock.map (Piece.fill vm.codeAddress?)
  rw [List.map_append, map_fill_labelAt, List.map_drop] at hfilled
  rw [List.length_append, ← Nat.add_assoc] at hnext
  refine ⟨fresh, part,
    fun i => offset (start k + (labelAt (branchLabels caller.body.code) (0 + k)).length + i),
    htemplate, ⟨h.shows, _, offset, _, h.placed, ?_, fun _ => rfl⟩,
    h.placed.offset_labelAt ((List.prefix_append _ _).trans hfilled), congrArg offset hnext.symm⟩
  obtain ⟨rest, hrest⟩ := hfilled
  rw [← List.drop_drop, ← hrest, List.append_assoc, List.drop_left]
  exact List.prefix_append _ _

/-- The code of a call of a published method, with the entry of the callee. -/
theorem Installed.exists_callSite (h : vm.Installed site caller callerRegion pieces start offset)
    (hmethod : vm.method? id = some method) (hcode : method.code = some region)
    (hinst : caller.body.code[k]? = some inst) (hkind : inst.kind = .callStatic)
    (hargs : inst.args = .symbol id :: operands) :
    ∃ outgoing passed result place,
      Fragment vm.code callerRegion (passed ++ callSequence outgoing region.base ++ result) place ∧
      place 0 = offset (start k) ∧
      place (passed ++ callSequence outgoing region.base ++ result).length =
        offset (start (k + 1)) ∧
      outgoing.toInt = 16 * (caller.body.frameSlots + 1 : Nat) ∧
      operands.length = method.signature.paramTypes.length ∧
      passArguments inst outgoing
        (operands.zip (method.signature.paramTypes.zip method.signature.paramLocals)) = .ok passed ∧
      storeResult inst method = .ok result := by
  obtain ⟨fresh, part, place, htemplate, hfragment, hfirst, hlast⟩ := h.exists_fragment hinst
  rw [template, hkind] at htemplate
  obtain ⟨id', callee, operands', disp, outgoing, passed, result, hargs', hcallee, hlength, hdisp,
    houtgoing, hpassed, hresult, hpart⟩ := callStaticTemplate_eq_ok htemplate
  cases hargs.symm.trans hargs'
  obtain ⟨ctx, owner, declared, hlower⟩ := h.lowered
  have hframe := Lowering.frameSlots_lt_of_lower hlower
  -- What the code was made for is declared like the method that is published.
  obtain ⟨published, hpublished, hdeclared⟩ := h.known.method? hcallee
  cases hmethod.symm.trans hpublished
  have hsignature : method.signature = callee.signature := by
    show method.declared.signature = callee.declared.signature
    rw [hdeclared]
  have hentry : vm.codeAddress? callee.id = some region.base := by
    rw [h.indexed.id_of_method? hcallee, codeAddress?, hmethod, Option.bind_some, hcode,
      Option.map_some]
  have hfilled : part.map (Piece.fill vm.codeAddress?) =
      passed ++ callSequence outgoing region.base ++ result := by
    rw [hpart, List.map_append, List.map_append, map_fill_of_plain (plain_passArguments hpassed),
      map_fill_of_plain (plain_storeResult hresult)]
    simp [Piece.fill, hentry, callSequence]
  refine ⟨outgoing, passed, result, place, hfilled ▸ hfragment, hfirst, ?_, ?_,
    hsignature ▸ hlength, hsignature ▸ hpassed, ?_⟩
  · rw [← hfilled, List.length_map]
    exact hlast
  · rw [toInt_of_displacement houtgoing, (toInt_slotDisp (by rw [h.frameSlots]; omega) hdisp).1,
      h.frameSlots, show slotSize.toInt = 16 from rfl]
    omega
  · rw [storeResult, hsignature]
    exact hresult

end Vm

/-! ### Both ways to enter a method -/

/-- A call from outside enters a method: its arguments are written, the stub gets control to the
code, where the method receives them, and waits. Whenever the method returns to the stub, the call
returns what is in `rax`, at the type of the result. -/
def EntersFromOutside (vm : Vm) (natives : Hosts) (method : Method) (region : Region)
    (args : List Value) (env : Env) : Prop :=
  ∃ slots s, Env.writeArguments env.slots (args.zip method.signature.paramLocals) = (slots, true) ∧
    Machine.run (hosts natives) vm.code 13 (Env.entryState slots env.heap region) = .exhausted s ∧
    Receives region method.signature args 0 stubReturn s ∧ StubWaits s ∧
    ∀ n t, Machine.run (hosts natives) vm.code n s = .exhausted t → t.rip = stubReturn →
      StubWaits t → ∀ spare, (env.call vm natives (13 + n + (9 + spare)) method args).outcome =
        .returned (method.signature.resultType.map (Value.ofBits · (UInt64.ofBitVec (t.reg .rax))))

/-- Compiled code with a frame of some slots enters a method from a call instruction, and the method
receives its arguments. Whenever the method returns to the address behind the jump, with its frame
base, control gets to the end of the code of the call, the frame base is the caller's, and the
destination holds what is in `rax`, at the type of the result. -/
def EntersFromCode (vm : Vm) (natives : Hosts) (method : Method) (region : Region)
    (args : List Value) (inst : Inst) (base count : Nat) (next finish : Word) (s : State) : Prop :=
  (∃ n t, Machine.run (hosts natives) vm.code n s = .exhausted t ∧
    Receives region method.signature args (base + count) next t) ∧
  ∀ t, t.rip = next → t.reg frameReg = t.memory.slotAddress (base + count + 1) →
    t.memory.slots.size = s.memory.slots.size → t.memory.SlotsFit →
    ∃ n u, Machine.run (hosts natives) vm.code n t = .exhausted u ∧ u.rip = finish ∧
      u.reg frameReg = u.memory.slotAddress base ∧
      ∀ ty, method.signature.resultType = some ty → ∃ dst, inst.dst = some (.slot dst) ∧
        u.memory.read? (location ty).1 (u.memory.valueAddress ty (base + dst)) =
          some (Value.ofBits ty (UInt64.ofBitVec (t.reg .rax))).bits.toBitVec

/-- A result that was taken is read at the location of its type. -/
theorem TakesResult.read? {inst : Inst} {resultType : Option ValueType} {base count : Nat}
    {s t : State} (h : TakesResult inst resultType base s t) (hin : InFrame count inst)
    (hfits : base + count ≤ s.memory.slots.size) (hfit : s.memory.SlotsFit) {ty : ValueType}
    (hty : resultType = some ty) : ∃ dst, inst.dst = some (.slot dst) ∧
      t.memory.read? (location ty).1 (t.memory.valueAddress ty (base + dst)) =
        some (Value.ofBits ty (UInt64.ofBitVec (s.reg .rax))).bits.toBitVec := by
  obtain ⟨dst, hdst, hslots⟩ := h.stored ty hty
  have hlt := hin.dst dst hdst
  let v := Value.ofBits ty (UInt64.ofBitVec (s.reg .rax))
  have htype : v.valueType = ty := Value.valueType_ofBits ty _
  have hheld : Holds t.memory.slots (base + dst) v := by
    rw [Holds, hslots, Array.getElem?_modify, if_pos rfl, Array.getElem?_eq_getElem (by omega),
      Option.map_some, Option.map_some, Value.inSlot_ofBits, htype]
    have hvalue := Semantics.Value.ofSlot_store (.ofBits ty (s.reg .rax)) s.memory.slots[base + dst]
    rw [Semantics.Value.type_ofBits] at hvalue
    rw [hvalue]
  have hread := hheld.read? (hfit.congr (by rw [h.heap]) (by rw [hslots, Array.size_modify]))
  rw [htype] at hread
  exact ⟨dst, hdst, hread⟩

/-- A call instruction of a published method enters the method that it names. -/
theorem Vm.Installed.entersFromCode {vm : Vm} {site : Codegen.Site} {caller method : Method}
    {callerRegion region : Region} {pieces : List Piece} {start offset : Nat → Nat}
    (h : vm.Installed site caller callerRegion pieces start offset)
    (hcaller : vm.code.fetch callerAddress = none) {id : SymbolId}
    (hmethod : vm.method? id = some method) (hcode : method.code = some region) {args : List Value}
    (htypes : args.map Value.valueType = method.signature.paramTypes) {k : Nat} {inst : Inst}
    {operands : List Operand} (hinst : caller.body.code[k]? = some inst)
    (hkind : inst.kind = .callStatic) (hargs : inst.args = .symbol id :: operands)
    (natives : Hosts) :
    ∃ next, ∀ base frame s, s.rip = regionAddress callerRegion (offset (start k)) →
      s.Sees base caller.body.frameSlots frame →
      readOperands frame operands method.signature.paramTypes = some (args.map Value.inSlot) →
      base + caller.body.frameSlots + 1 + method.signature.paramSlots ≤ s.memory.slots.size →
      EntersFromCode vm natives method region args inst base caller.body.frameSlots next
        (regionAddress callerRegion (offset (start (k + 1)))) s := by
  obtain ⟨outgoing, passed, result, place, hfragment, hfirst, hlast, houtgoing, hlength, hpassed,
      hresult⟩ :=
    h.exists_callSite hmethod hcode hinst hkind hargs
  obtain ⟨ctx, owner, declared, hlower⟩ := h.lowered
  have hmem := List.mem_of_getElem? hinst
  have hframe := Lowering.frameSlots_lt_of_lower hlower
  have hin := Lowering.inFrame_of_lower hlower inst hmem
  have hlayout := method.signature.paramLayout
  have hsmall : ∀ index ∈ method.signature.paramLocals, index < slotBound := fun index hindex =>
    lt_of_mem_paramLocals (Lowering.length_args_of_lower hlower inst hmem)
      (by rw [hargs, List.drop_one, List.tail_cons, hlength]) hindex
  unfold slotBound at hsmall
  refine ⟨regionAddress callerRegion (place (passed.length + 5)),
    fun base frame s hrip hs hread hroom => ⟨?_, ?_⟩⟩
  · rw [← htypes] at hread hpassed
    obtain ⟨t, honly, ht, hwritten, hleads⟩ := leads_passArguments hs houtgoing hread
      (fun index hindex => hin.args index (hargs ▸ List.mem_cons_of_mem _ hindex))
      (by rw [hlayout.length, ← htypes, List.length_map])
      (fun index hindex => Nat.lt_trans (hsmall index hindex) (by decide))
      (fun index hindex => by have := Descriptor.lt_paramSlots hindex; omega)
      hlayout.distinct hpassed
    have hsize := honly.size
    have hpass :=
      hfragment.run_leads (i := 0) (List.append_assoc .. ▸ List.prefix_append _ _) hleads
        (hosts natives)
    rw [hfirst, ← hrip, Nat.zero_add] at hpass
    obtain ⟨u, hcall, hentry, huframe, huheap, huslots⟩ :=
      run_toCallee hfragment houtgoing ht.rsi (by omega) ht.slotsFit (hosts natives)
    refine ⟨passed.length + 5, u, run_of_native hcaller ((run_add hpass 5).trans hcall), ?_⟩
    have hfit := ht.slotsFit.congr (by rw [huheap]) (by rw [huslots, Array.size_modify])
    exact .of_written htypes hwritten huslots (by omega) hfit
      (hentry.trans (by rw [regionAddress]; exact (BitVec.add_zero _).symm)) huframe
  · intro t htrip htframe htsize hfit
    have hfits := hs.fits
    obtain ⟨n, u, hrun, htakes⟩ :=
      run_fromCallee hfragment houtgoing (by omega) hin hresult htrip htframe
        (by omega) hfit (hosts natives)
    rw [hlast] at hrun
    exact ⟨n, _, run_of_native hcaller hrun, rfl, htakes.frame, fun ty hty =>
      htakes.read? hin (by omega) hfit hty⟩

open Vm in
/-- **Both ways to enter a method.** Parameters lie apart from each other in a frame. For every
published method and all arguments of its types, a call from outside that is accepted and a call
instruction of any published method whose operands have the same values enter it with each argument
in the slot of its parameter, at the location of its type; and for the same content of `rax` at the
return, what the call from outside returns is what the instruction stores. The slot arrays have room
for the arguments, do not meet the environment or the native stack, and end before the last
address. -/
theorem entries_agree (config : Config) (requests : List Request) {id : SymbolId} {method : Method}
    {region : Region} (hmethod : (serveAll config requests).method? id = some method)
    (hcode : method.code = some region) (args : List Value)
    (htypes : args.map Value.valueType = method.signature.paramTypes) (natives : Hosts) :
    method.signature.ParamLayout ∧
    (∀ env : Env,
      env.checkCall ((serveAll config requests).qualifiedName method.id) method args = .ok region →
      1 + method.signature.paramSlots ≤ env.slots.size →
      Apart (env.heap.place.runAreas env.slots.size nativeStackWords) →
      EntersFromOutside (serveAll config requests) natives method region args env) ∧
    ∀ callerId caller callerRegion, (serveAll config requests).method? callerId = some caller →
      caller.code = some callerRegion →
      ∃ site pieces start offset,
        (serveAll config requests).Installed site caller callerRegion pieces start offset ∧
        ∀ (k : Nat) inst operands, caller.body.code[k]? = some inst → inst.kind = .callStatic →
          inst.args = .symbol id :: operands →
          ∃ next, ∀ base frame s, s.rip = regionAddress callerRegion (offset (start k)) →
            s.Sees base caller.body.frameSlots frame →
            readOperands frame operands method.signature.paramTypes = some (args.map Value.inSlot) →
            base + caller.body.frameSlots + 1 + method.signature.paramSlots ≤ s.memory.slots.size →
            EntersFromCode (serveAll config requests) natives method region args inst base
              caller.body.frameSlots next
                (regionAddress callerRegion (offset (start (k + 1)))) s := by
  have hlaid := laid config requests
  refine ⟨method.signature.paramLayout, fun env haccepted hroom hapart => ?_,
    fun callerId caller callerRegion hcaller hcallerCode => ?_⟩
  · obtain ⟨slots, s, hwrite, hrun, hreceives, hwaits⟩ :=
      receives_of_accepted hlaid.stub hlaid.caller htypes hroom hapart natives
    refine ⟨slots, s, hwrite, hrun, hreceives, hwaits, fun n t hbody hrip ht spare => ?_⟩
    exact returned_of_resumed hlaid.stub hlaid.caller haccepted hwrite
      ((run_add_of_exhausted hrun n).trans hbody) hrip ht spare
  · obtain ⟨-, site, pieces, start, offset, hinstalled⟩ :=
      hlaid.methods callerId caller callerRegion hcaller hcallerCode
    exact ⟨site, pieces, start, offset, hinstalled, fun k inst operands hinst hkind hargs =>
      hinstalled.entersFromCode hlaid.caller hmethod hcode htypes hinst hkind hargs natives⟩

/-- A frame at slot one that holds three and four, with room for a call above it. -/
def swapState (rip : Word) : State :=
  let memory : Memory :=
    { slots := #[{}, { scalar := 3 }, { scalar := 4 }] ++ Array.replicate 9 {},
      heap := (blankEnv 0).heap, stack := #[] }
  State.setReg { regs := Vector.replicate 16 0, xmms := Vector.replicate 16 0, rip, memory }
    frameReg (memory.slotAddress 1)

open Vm in
/-- A method is entered with four and three from outside, and by a method whose frame has three and
four. -/
theorem entries_agree_swap : ∃ method region caller callerRegion,
    (serveAll {} [.load [swapDecl]]).method? default = some method ∧ method.code = some region ∧
      (serveAll {} [.load [swapDecl]]).method? swapMethod.id = some caller ∧
        caller.code = some callerRegion ∧
      EntersFromOutside (serveAll {} [.load [swapDecl]]) HostFn.table method region
        [.long 4, .int 3] (blankEnv 300) ∧
      ∃ inst start finish next, caller.body.code[0]? = some inst ∧
        EntersFromCode (serveAll {} [.load [swapDecl]]) HostFn.table method region
          [.long 4, .int 3] inst 1 7 next (regionAddress callerRegion finish)
            (swapState (regionAddress callerRegion start)) := by
  obtain ⟨region, callerRegion, hmethod, hcaller⟩ := exists_load_swap
  obtain ⟨-, houtside, hcode⟩ :=
    entries_agree {} [.load [swapDecl]] hmethod rfl [.long 4, .int 3] rfl HostFn.table
  obtain ⟨site, pieces, start, offset, -, hcalls⟩ := hcode _ _ _ hcaller rfl
  obtain ⟨next, hcall⟩ := hcalls 0 _ _ rfl rfl rfl
  have hsize : (blankEnv 300).slots.size = 300 := Array.size_replicate
  have hframe : (swapState (regionAddress callerRegion (offset (start 0)))).AtFrame 1 7 :=
    ⟨State.reg_setReg_same _ _ _, (by decide : 8 ≤ 12),
      (by decide : 0x700000000000 + 16 * 12 ≤ 2 ^ 64)⟩
  refine ⟨_, region, _, callerRegion, hmethod, rfl, hcaller, rfl, ?_, _, _, _, next, rfl,
    hcall 1 _ _ rfl (sees_frameAt hframe) rfl (by decide : 12 ≤ 12)⟩
  refine houtside (blankEnv 300) ((Env.checkCall_eq rfl rfl rfl).trans (if_neg ?_)) ?_ ?_
  · rw [Env.stackSlots, hsize]
    exact (by decide : ¬ 42 < 5)
  · rw [hsize]
    exact (by decide : 4 ≤ 300)
  · rw [hsize]
    exact apart_blankPlace (by decide)

end SlotJit.Engine

import SlotJit.Proofs.Codegen.Arrays

/-!
# Calls of native methods

A native method gets its arguments in registers. The second of these registers holds the frame base,
from which arguments are loaded, so it is loaded last. Of a narrow result only the low bits are
defined, and the code after the call extends them.

## Main results

* `loadOrder_perm`, `apart_loadOrder`: each argument is loaded once, and the frame base is
  overwritten last.
* `leads_extendResult`: narrow results.
* `native_call_marshals`: a call from its first instruction to its last.
-/

namespace SlotJit.Codegen

open SlotJit.CodeMemory SlotJit.Ir SlotJit.Machine SlotJit.Semantics SlotJit.Tables SlotJit.X64

/-! ### The order of arguments -/

/-- The order of loading is an order of the arguments. -/
theorem loadOrder_perm {α : Type} (xs : List α) : (loadOrder xs).Perm xs := by
  match xs with
  | [] | [_] => exact .refl _
  | first :: second :: rest => exact (List.perm_append_singleton second rest).cons first

/-- The order of loading does not depend on what the arguments are. -/
theorem map_loadOrder {α β : Type} (f : α → β) (xs : List α) :
    (loadOrder xs).map f = loadOrder (xs.map f) := by
  match xs with
  | [] | [_] => rfl
  | first :: second :: rest => simp [loadOrder]

/-- Argument registers differ from each other, and a register that is loaded before another is not
the frame base. -/
theorem apart_loadOrder {α : Type} (args : List α) :
    (loadOrder (argumentRegs.zip args)).Pairwise fun load later =>
      load.1 ≠ frameReg ∧ load.1 ≠ later.1 := by
  have htake : ∀ n < 7, (loadOrder (argumentRegs.take n)).Pairwise fun r later =>
      r ≠ frameReg ∧ r ≠ later := by
    decide
  have hregs : (loadOrder (argumentRegs.zip args)).map Prod.fst =
      loadOrder (argumentRegs.take (min argumentRegs.length args.length)) := by
    rw [map_loadOrder, List.zip_eq_zip_take_min, List.map_fst_zip (by simp)]
  have hpairwise := htake (min argumentRegs.length args.length)
    (Nat.lt_succ_of_le (Nat.min_le_left argumentRegs.length _))
  rw [← hregs, List.pairwise_map] at hpairwise
  exact hpairwise

/-! ### What the template puts together -/

/-- The method that a call names is in the context. -/
theorem calleeOf_eq_ok {site : Site} {inst : Inst} {callee : Method}
    (h : calleeOf site inst = .ok callee) :
    ∃ id, inst.args.head? = some (.symbol id) ∧ site.context.method? id = some callee := by
  unfold calleeOf at h
  split at h
  · rename_i id hhead
    split at h
    · rename_i method hmethod
      cases h
      exact ⟨id, hhead, hmethod⟩
    · cases h
  · cases h

/-- What the template of a native call puts together. -/
theorem callNativeTemplate_eq_ok {site : Site} {inst : Inst} {part : List Piece}
    (h : callNativeTemplate site inst = .ok part) :
    ∃ id callee address operands loads result, inst.args = .symbol id :: operands ∧
      site.context.method? id = some callee ∧
      site.natives (site.context.qualifiedName callee.id) = some address ∧
      operands.length = callee.signature.paramTypes.length ∧
      callee.signature.paramTypes.length ≤ argumentRegs.length ∧
      loadArguments inst (loadOrder (argumentRegs.zip (callee.signature.paramTypes.zip operands))) =
        .ok loads ∧
      storeResult inst callee = .ok result ∧
      part = saveFrame :: loads ++
        (callHost address ++ (extendResult callee.signature.result ++ result)) := by
  obtain ⟨callee, hcallee, h⟩ := bind_eq_ok.mp h
  obtain ⟨id, hhead, hmethod⟩ := calleeOf_eq_ok hcallee
  obtain ⟨operands, hargs⟩ : ∃ operands, inst.args = .symbol id :: operands :=
    List.head?_eq_some_iff.mp hhead
  simp only at h
  split at h
  · cases h
  rename_i hfew
  split at h
  · cases h
  split at h
  · rename_i address haddress
    split at h
    · cases h
    rename_i hlength
    rw [hargs, List.drop_one, List.tail_cons] at hlength h
    obtain ⟨loads, hloads, h⟩ := bind_eq_ok.mp h
    obtain ⟨result, hresult, h⟩ := bind_eq_ok.mp h
    cases h
    exact ⟨id, callee, address, operands, loads, result, hargs, hmethod, haddress,
      not_not.mp hlength, Nat.le_of_not_lt hfew, hloads, hresult, by simp⟩
  · cases h

/-- Loading an argument is one instruction. -/
theorem compact_loadArguments {inst : Inst} {loads : List (Reg × ValueType × Operand)}
    {pieces : List Piece}
    (h : loadArguments inst loads = .ok pieces) : Compact loads.length pieces := by
  induction loads generalizing pieces with
  | nil =>
      cases h
      exact ⟨fun p hp => absurd hp List.not_mem_nil, Nat.le_refl 0⟩
  | cons first rest ih =>
      obtain ⟨loaded, hloaded, h⟩ := bind_eq_ok.mp h
      obtain ⟨others, hothers, h⟩ := bind_eq_ok.mp h
      cases h
      rw [List.length_cons, Nat.add_comm]
      exact (compact_load hloaded).append (ih hothers)

/-- Storing the result is one instruction if any. -/
theorem compact_storeResult {inst : Inst} {callee : Method} {pieces : List Piece}
    (h : storeResult inst callee = .ok pieces) : Compact 1 pieces := by
  unfold storeResult at h
  split at h
  · exact compact_store h
  · cases h
    exact ⟨fun p hp => absurd hp List.not_mem_nil, Nat.zero_le 1⟩

/-! ### Arguments -/

section Arguments

variable {base count word : Nat} {frame : Frame} {s : State} {inst : Inst} {id : SymbolId}
  {operands : List Operand} {types : List ValueType} {loads : List Piece}

/-- The frame base is kept and each argument is put into its register. -/
theorem leads_arguments (hs : s.Sees base count frame) (hcount : count < 2 ^ 31)
    (hin : InFrame count inst) (hargs : inst.args = .symbol id :: operands)
    (hword : s.memory.cell? (s.reg .rsp) = some (.stack word))
    (hloads : loadArguments inst (loadOrder (argumentRegs.zip (types.zip operands))) = .ok loads) :
    ∃ regs t, Leads (saveFrame :: loads) s t ∧ OnlyRegs regs (spilled s word) t ∧
      (∀ r ∈ regs, r ∈ hostArguments) ∧
      ∀ (i : Nat) ty operand reg, types[i]? = some ty → operands[i]? = some operand →
        argumentRegs[i]? = some reg →
        operandBits? frame ty operand = some (t.regPart (sizeOf ty) reg) := by
  have hperm := loadOrder_perm (argumentRegs.zip (types.zip operands))
  have hinside : ∀ load ∈ loadOrder (argumentRegs.zip (types.zip operands)),
      ∀ index, load.2.2 = .slot index → index < count := by
    rintro ⟨reg, ty, operand⟩ hload index rfl
    have hoperand := (List.of_mem_zip (List.of_mem_zip (hperm.mem_iff.mp hload)).2).2
    exact hin.args index (hargs ▸ List.mem_cons_of_mem _ hoperand)
  obtain ⟨t, hleads, honly, hbits⟩ := leads_loadArguments (sees_spilled hs word) hcount hinside
    (apart_loadOrder _) hloads
  refine ⟨_, t, (leads_saveFrame hword).append hleads, honly, fun r hr => ?_,
    fun i ty operand reg hty hoperand hreg => ?_⟩
  · obtain ⟨load, hload, rfl⟩ := List.mem_map.mp hr
    exact (List.of_mem_zip (hperm.mem_iff.mp hload)).1
  · have hload : (argumentRegs.zip (types.zip operands))[i]? = some (reg, ty, operand) :=
      List.getElem?_zip_eq_some.mpr ⟨hreg, List.getElem?_zip_eq_some.mpr ⟨hty, hoperand⟩⟩
    exact hbits _ (hperm.mem_iff.mpr (List.mem_of_getElem? hload))

end Arguments

/-! ### Results -/

/-- The value of a result that a host function leaves in a register. Of a narrow result only the low
bits are defined. -/
def hostValue : FieldType → Word → Value
  | .boolean, w => .int ((w.setWidth 8).setWidth 32)
  | .byte, w => .int ((w.setWidth 8).signExtend 32)
  | .char, w => .int ((w.setWidth 16).setWidth 32)
  | .short, w => .int ((w.setWidth 16).signExtend 32)
  | ty, w => .ofBits ty.valueType w

/-- Extending the result is one instruction if any. -/
theorem compact_extendResult (result : Option FieldType) : Compact 1 (extendResult result) := by
  unfold extendResult
  split
  · exact compact_instr _
  · exact compact_instr _
  · exact compact_instr _
  · exact compact_instr _
  · exact ⟨fun p hp => absurd hp List.not_mem_nil, Nat.zero_le 1⟩

/-- A narrow result is extended from its low bits. -/
theorem leads_extend (s : State) (signed : Bool) (part : Part) :
    ∃ t, Leads [.instr (.extend signed part .rax .rax)] s t ∧ OnlyRegs [.rax] s t ∧
      Value.ofBits .int (t.reg .rax) = .int (extended signed part (s.reg .rax)) := by
  refine ⟨s.setPart .dword .rax (extended signed part (s.reg .rax)),
    .single fun _ _ => rfl, .setReg _ _ _, ?_⟩
  rw [ofBits_eq_valueOf]
  exact congrArg Value.int (regPart_setPart_same s .dword .rax _)

/-- The code after a call leaves the value of the result in `rax`. -/
theorem leads_extendResult (s : State) (ty : FieldType) :
    ∃ t, Leads (extendResult (some ty)) s t ∧ OnlyRegs [.rax] s t ∧
      Value.ofBits ty.valueType (t.reg .rax) = hostValue ty (s.reg .rax) := by
  have hkept : Leads [] s s ∧ OnlyRegs [.rax] s s := ⟨⟨[], rfl, .nil s⟩, fun _ _ => rfl, rfl, rfl⟩
  cases ty with
  | boolean => exact leads_extend s false .byte
  | byte => exact leads_extend s true .byte
  | char => exact leads_extend s false .word
  | short => exact leads_extend s true .word
  | int | long | float | double | object | array => exact ⟨s, hkept.1, hkept.2, rfl⟩

/-- The result of a call was stored, if there is one. -/
structure StoresResult (inst : Inst) (result : Option FieldType) (base : Nat) (w : Word)
    (before after : Array Slot) : Prop where
  none : result = none → after = before
  some : ∀ ty, result = some ty → ∃ dst, inst.dst = some (.slot dst) ∧
    Deposits (base + dst) (hostValue ty w) before after

/-- What is left after a host function returned: the result is extended and stored. -/
theorem leads_result {base count : Nat} {frame : Frame} {s : State} {inst : Inst} {callee : Method}
    {stored : List Piece} (hs : s.Sees base count frame) (hcount : count < 2 ^ 31)
    (hin : InFrame count inst) (h : storeResult inst callee = .ok stored) :
    ∃ t, Leads (extendResult callee.signature.result ++ stored) s t ∧
      StoresResult inst callee.signature.result base (s.reg .rax) s.memory.slots t.memory.slots ∧
      t.memory.heap = s.memory.heap ∧ ∀ r, r ≠ .rax → t.reg r = s.reg r := by
  unfold storeResult Descriptor.resultType at h
  cases hresult : callee.signature.result with
  | none =>
      rw [hresult] at h
      cases h
      exact ⟨s, ⟨[], rfl, .nil s⟩,
        ⟨fun _ => rfl, fun _ hty => absurd hty.symm (Option.some_ne_none _)⟩, rfl, fun _ _ => rfl⟩
  | some ty =>
      rw [hresult] at h
      obtain ⟨dst, hdst⟩ := dst_of_store h
      obtain ⟨t, hleads, honly, hvalue⟩ := leads_extendResult s ty
      have hstore := leads_store (honly.sees (by decide) hs) hcount hdst (hin.dst dst hdst) h
      rw [hvalue] at hstore
      have hfits := hs.fits
      have hdstIn := hin.dst dst hdst
      refine ⟨_, hleads.append hstore,
        ⟨fun hnone => absurd hnone (Option.some_ne_none ty), fun ty' hty => ?_⟩, ?_, fun r hr => ?_⟩
      · cases hty
        refine ⟨dst, hdst, ?_⟩
        rw [State.put, honly.memory]
        exact deposits_modify (by omega) _
      · rw [State.put, honly.memory]
      · exact honly.kept r (List.mem_singleton.not.mpr hr)

/-! ### The code of native calls -/

/-- **Native calls.** Wherever the code of a call of a native method is executed, for any number of
arguments that the template accepts, slots and constants, the same more than once or not:

* at the call instruction `rax` holds the address that the full name of the callee is bound to, each
  argument register holds its argument at the width of its type, and the word at the top of the
  native stack holds the frame base.
* for every host function at this address that returns, whatever it leaves in the registers that
  functions need not keep and in the upper bits of its result, control gets to the end of the code.
  The frame base is in its register again, the destination holds the result, extended from its low
  bits if it is narrow, and no other byte of any slot has changed. -/
theorem native_call_marshals {site : Site} {fresh : Nat} {inst : Inst} {part : List Piece}
    (htemplate : template site fresh inst = .ok part) (hkind : inst.kind = .callNative)
    {code : CodeMap} {region : Region} {place : Nat → Nat}
    (hfragment : Fragment code region part place)
    {base count word : Nat} {frame : Frame} {s : State} (hs : s.Sees base count frame)
    (hcount : count < 2 ^ 31) (hin : InFrame count inst)
    (hword : s.memory.cell? (s.reg .rsp) = some (.stack word))
    (hrip : s.rip = regionAddress region (place 0)) (hosts : Hosts) :
    ∃ id callee address operands call, inst.args = .symbol id :: operands ∧
      site.context.method? id = some callee ∧
      site.natives (site.context.qualifiedName callee.id) = some address ∧
      operands.length = callee.signature.paramTypes.length ∧ operands.length ≤ argumentRegs.length ∧
      part[call]? = some (.instr (.callReg .rax)) ∧
      ∃ (n : Nat) (t : State), run (NativeMachine.step hosts code region) n s =
          .next { t with rip := regionAddress region (place call) } ∧
        t.reg .rax = address.toBitVec ∧
        (∀ (i : Nat) ty operand reg, callee.signature.paramTypes[i]? = some ty →
          operands[i]? = some operand →
          argumentRegs[i]? = some reg →
          operandBits? frame ty operand = some (t.regPart (sizeOf ty) reg)) ∧
        t.memory.read? .qword (t.reg .rsp) = some (s.reg frameReg) ∧
          t.memory.slots = s.memory.slots ∧
        t.memory.heap = s.memory.heap ∧
        ∀ f w, hosts address.toBitVec = some f →
          (f s.memory.heap (hostArguments.map t.reg)).value = some w →
          (f s.memory.heap (hostArguments.map t.reg)).heap.place = s.memory.heap.place →
          Arrives hosts code region s (place part.length) fun u =>
            u.reg frameReg = s.reg frameReg ∧
              (∀ r, r ≠ .rax → r ∉ callerSaved → u.reg r = s.reg r) ∧
            StoresResult inst callee.signature.result base w s.memory.slots u.memory.slots ∧
            u.memory.heap = (f s.memory.heap (hostArguments.map t.reg)).heap := by
  have hstart : { s with rip := regionAddress region (place 0) } = s := by rw [← hrip]
  rw [template, hkind] at htemplate
  obtain ⟨id, callee, address, operands, loads, result, hargs, hmethod, haddress, hlength,
    hfew, hloads, hresult, rfl⟩ := callNativeTemplate_eq_ok htemplate
  obtain ⟨regs, t, hleads, honly, hregs, hbits⟩ := leads_arguments hs hcount hin hargs hword hloads
  have hcompact := ((compact_instr (.store .qword spillMem frameReg)).append
    (compact_loadArguments hloads)).append ((compact_callHost address).append
      ((compact_extendResult callee.signature.result).append (compact_storeResult hresult)))
  have hn : 1 + (loadOrder (argumentRegs.zip (callee.signature.paramTypes.zip operands))).length +
      (3 + (1 + 1)) < 2 ^ 20 := by
    have hmin :=
      Nat.min_le_left argumentRegs.length (callee.signature.paramTypes.zip operands).length
    rw [(loadOrder_perm _).length_eq, List.length_zip]
    exact Nat.lt_of_le_of_lt (Nat.add_le_add_right (Nat.add_le_add_left hmin 1) _) (by decide)
  obtain ⟨m, hto⟩ := hfragment.run_toCall hcompact hn hleads hosts
  obtain ⟨htop, hsaved⟩ := stack_spilled hword
  have hcall : (saveFrame :: loads ++
      (callHost address ++ (extendResult callee.signature.result ++ result)))[
      (saveFrame :: loads).length + 1]? = some (.instr (.callReg .rax)) := by
    rw [List.getElem?_append_right (Nat.le_add_right _ _), Nat.add_sub_cancel_left]
    rfl
  -- The address is in no argument register, so the arguments are still in theirs.
  have hargument : ∀ r ∈ hostArguments, (t.setReg .rax address.toBitVec).reg r = t.reg r :=
    fun r hr =>
    State.reg_setReg_of_ne _ _ _ (by rintro rfl; revert hr; decide)
  have hrsp : t.reg .rsp = s.reg .rsp :=
    honly.kept .rsp fun hmem => absurd (hregs _ hmem) (by decide)
  rw [hstart] at hto
  refine ⟨id, callee, address, operands, (saveFrame :: loads).length + 1, hargs, hmethod,
    haddress, hlength,
    hlength ▸ hfew, hcall, m, t.setReg .rax address.toBitVec, hto, State.reg_setReg_same _ _ _,
    fun i ty operand reg hty hoperand hreg => ?_, ?_, ?_, ?_, fun f w hhost hvalue hplace => ?_⟩
  · rw [hbits i ty operand reg hty hoperand hreg]
    exact congrArg (fun w => some (Word.low (sizeOf ty) w))
      (hargument reg (List.mem_of_getElem? hreg)).symm
  · rw [State.reg_setReg_of_ne _ _ _ (by decide), hrsp, State.memory_setReg, honly.memory]
    exact read?_stack htop hsaved
  · rw [State.memory_setReg, honly.memory]
    rfl
  · rw [State.memory_setReg, honly.memory]
    rfl
  · have hmap : hostArguments.map (t.setReg .rax address.toBitVec).reg = hostArguments.map t.reg :=
      List.map_congr_left hargument
    rw [hmap] at hvalue hplace ⊢
    obtain ⟨m₁, u, hrun, hresumed⟩ :=
      hfragment.run_hostCall hcompact hn hleads honly hregs hword hhost hvalue hplace
    obtain ⟨v, hback, hstored, hheap, hkept⟩ :=
      leads_result (hresumed.sees hplace hs) hcount hin hresult
    have hpath := (hback.reaches.append_left (callHost address)).append_left (saveFrame :: loads)
    rw [← List.length_append, ← List.length_append] at hpath
    obtain ⟨m₂, hrun'⟩ := hfragment.run_reaches hcompact hn hpath hosts
    rw [hstart] at hrun
    rw [hresumed.rax, hresumed.slots] at hstored
    refine ⟨m₁ + m₂, _, (run_add hrun m₂).trans hrun', rfl, ?_, fun r hrax hr => ?_, hstored, ?_⟩
    · exact (hkept _ (by decide)).trans hresumed.frame
    · exact (hkept r hrax).trans (hresumed.kept r hrax hr)
    · exact hheap.trans hresumed.heap

/-- A native method that makes a short of an int and a long. -/
def mix : Method :=
  { name := "mix", descriptor := "(IJ)S", signature := ⟨[.int, .long], some .short⟩,
    access := .staticFlag, id := default, maxLocals := 0, maxStack := 0, bytecode := [] }

/-- The class of `mix`. -/
def mixOwner : ClassTable := { name := "Main", constants := {}, methods := #[mix] }

/-- All that a caller of `mix` sees. -/
def mixContext : Context := { published := #[{ index := 0, name := "p", classes := #[mixOwner] }] }

/-- A call of `mix` whose second argument is where the result goes. -/
def mixInst : Inst :=
  { kind := .callNative, dst := some (.slot 0), args := [.symbol default, .slot 1, .slot 0] }

/-- A method that calls `mix`. -/
def mixCaller : Method :=
  { Lowering.countdown with
    body := { code := [mixInst, { kind := .ret none, args := [] }], frameSlots := 2 } }

/-- Where `mix` is. -/
def mixAddress : UInt64 := 0x600000000000

/-- A host function that leaves five in all registers that it need not keep, and dirt above a
short. -/
def dirtyShort : HostFunction := fun heap _ =>
  { heap, value := some 0xffffffff12348001, scratch := fun _ => 5 }

/-- The code of `mixCaller`. -/
theorem bodyPieces_mixCaller :
    bodyPieces ⟨mixContext, fun _ => some mixAddress, 2⟩ mixCaller.body.code =
      .ok ([.instr (.lea .rax (frameMem 32)),
        .instr (.aluLoad .cmp .qword .rax { base := envReg, disp := limitOffset }),
        .jump (some .be) 3, .instr .trap, .label 3, saveFrame,
        .instr (.load .dword .rdi (frameMem 16)),
        .instr (.load .qword .rsi (frameMem 0))] ++ callHost mixAddress ++
        [.instr (.extend true .word .rax .rax), .instr (.store .dword (frameMem 0) .rax),
        .instr returnJump]) := by
  simp only [bodyPieces, instructionPieces, labelAt, contains_branchLabels, mixCaller]
  decide +kernel

/-- A call of `mix` with nine and seven gets both in their registers. Its result is a negative
short, whatever is above it. -/
theorem native_call_marshals_mix :
    ∃ compiled relocations alloc' part place,
      compileMethod mixContext (fun _ => some mixAddress) { next := Allocator.codeBase }
        mixCaller.id mixCaller = (alloc', .ok (compiled, relocations)) ∧
      Fragment (CodeMap.insert {} compiled.code) compiled.code part place ∧
      (∃ (n : Nat) (t : State),
          run (NativeMachine.step (fun _ => some dirtyShort) (CodeMap.insert {} compiled.code)
          compiled.code) n
            (arrayState { scalar := 7 } { scalar := 9 } (regionAddress compiled.code (place 0))) =
            .next t ∧
        t.reg .rax = mixAddress.toBitVec ∧ t.regPart .dword .rdi = 9 ∧ t.regPart .qword .rsi = 7) ∧
      Arrives (fun _ => some dirtyShort) (CodeMap.insert {} compiled.code) compiled.code
        (arrayState { scalar := 7 } { scalar := 9 } (regionAddress compiled.code (place 0)))
        (place part.length)
        fun u => u.reg frameReg = (arrayMemory {} {}).slotAddress 0 ∧
          (u.memory.slots[0]?).map (Value.ofSlot .int) = some (.int (-32767)) := by
  obtain ⟨compiled, relocations, alloc', hcompile, hshows⟩ :=
    @exists_shown mixContext (fun _ => some mixAddress) mixCaller _ rfl bodyPieces_mixCaller
      (by decide) (by decide) (by decide)
  obtain ⟨fresh, part, place, htemplate, hfragment⟩ := exists_fragment hcompile hshows
    (show mixCaller.body.code[0]? = some mixInst from rfl)
  have hin : InFrame 2 mixInst := ⟨by simp [mixInst], by simp [mixInst]⟩
  have hcell : (arrayMemory { scalar := 7 } { scalar := 9 }).cell?
      (BitVec.ofNat 64 plainMemory.heap.place.stackBase) = some (.stack 0) := by
    decide +kernel
  obtain ⟨id, callee, address, operands, call, hargs, hmethod, haddress, -, -, -, n, t, hrun, hrax,
      harguments, -, -, -, hreturns⟩ :=
    native_call_marshals htemplate rfl hfragment
      (sees_arrayState { scalar := 7 } { scalar := 9 } (regionAddress compiled.code (place 0)))
      (by decide) hin
      hcell rfl fun _ => some dirtyShort
  cases hargs
  cases hmethod
  cases haddress
  obtain ⟨m, u, hrun', hfinish, hframe, -, hstored, -⟩ := hreturns dirtyShort _ rfl rfl rfl
  obtain ⟨dst, hdst, hdeposits⟩ := hstored.some .short rfl
  cases hdst
  refine ⟨compiled, relocations, alloc', part, place, hcompile, hfragment,
    ⟨n, _, hrun, hrax, ?_, ?_⟩, m, u, hrun', hfinish, hframe, hdeposits.value⟩
  · exact (Option.some.inj (harguments 0 .int (.slot 1) .rdi rfl rfl rfl)).symm
  · exact (Option.some.inj (harguments 1 .long (.slot 0) .rsi rfl rfl rfl)).symm

end SlotJit.Codegen

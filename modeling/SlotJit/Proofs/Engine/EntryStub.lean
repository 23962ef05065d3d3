import SlotJit.Engine.Env
import SlotJit.Proofs.Codegen.HostCalls
import SlotJit.Proofs.Engine.Installed

/-!
# Through the entry stub

A call from outside starts at the entry stub. The stub saves registers on the native stack, sets up
the frame base and the environment, leaves the address where it goes on in the first slot, and jumps
to the code of the method. When the code jumps back there, the stub takes the registers from the
native stack and returns to its caller with the result.

The processor runs until it is where the caller waits. No code is there, so it runs like the native
machine as long as that does not halt (`run_of_native`).

## Main results

* `leads_pushes`, `leads_pops`: the native stack.
* `run_entry`: from the caller to the code of a method.
* `run_exit`: from the code back to the caller.
-/

namespace SlotJit.Machine

open SlotJit.CodeMemory SlotJit.Codegen SlotJit.Semantics SlotJit.X64

/-! ### Runs -/

section Runs

variable {hosts : Hosts} {code : CodeMap} {region : Region} {s t : State} {m n : Nat}

/-- A step and then the others. -/
theorem run_succ_of_step (hcaller : code.fetch callerAddress = none)
    (h : step hosts code s = .next t)
    (n : Nat) : Machine.run hosts code (n + 1) s = Machine.run hosts code n t := by
  have hrip : s.rip ≠ callerAddress := by
    intro hrip
    rw [step, hrip, hcaller] at h
    cases h
  rw [Machine.run, if_neg hrip, h]

/-- A run can be cut where its budget ends. -/
theorem run_add_of_exhausted (h : Machine.run hosts code m s = .exhausted t) (n : Nat) :
    Machine.run hosts code (m + n) s = Machine.run hosts code n t := by
  induction m generalizing s with
  | zero =>
      cases h
      rw [Nat.zero_add]
  | succ m ih =>
      rw [Nat.add_right_comm]
      rw [Machine.run] at h ⊢
      split at h
      · cases h
      · rename_i hrip
        rw [if_neg hrip]
        cases hstep : step hosts code s with
        | next u =>
            rw [hstep] at h
            exact ih h
        | trap signal u =>
            rw [hstep] at h
            cases h

/-- A step of the native machine is one of the processor. -/
theorem step_of_native (h : NativeMachine.step hosts code region s = .next t) :
    step hosts code s = .next t := by
  unfold NativeMachine.step at h
  split at h
  · cases h
  · split at h
    · cases h
    · cases hstep : step hosts code s with
      | next u =>
          rw [hstep] at h
          cases h
          rfl
      | trap signal u =>
          rw [hstep] at h
          cases h

/-- Where no code is at the caller, the processor runs like the native machine of any region. -/
theorem run_of_native (hcaller : code.fetch callerAddress = none)
    (h : Semantics.run (NativeMachine.step hosts code region) n s = .next t) :
    Machine.run hosts code n s = .exhausted t := by
  induction n generalizing s with
  | zero =>
      cases h
      rfl
  | succ n ih =>
      rw [Semantics.run] at h
      cases hstep : NativeMachine.step hosts code region s with
      | next u =>
          rw [hstep] at h
          rw [run_succ_of_step hcaller (step_of_native hstep), ih h]
      | halt outcome u =>
          rw [hstep] at h
          cases h
      | stuck =>
          rw [hstep] at h
          cases h

end Runs

/-! ### The native stack -/

namespace Memory

/-- The address of a word of the native stack. -/
def stackAddress (m : Memory) (w : Nat) : Word := BitVec.ofNat 64 (m.heap.place.stackBase + 8 * w)

/-- The address of a word stands for it. -/
theorem RunApart.cell?_stackAddress {m : Memory} (h : m.RunApart) {w : Nat}
    (hw : w < m.stack.size) : m.cell? (m.stackAddress w) = some (.stack w) := by
  have hlast : m.heap.place.stackBase + 8 * m.stack.size ≤ 2 ^ 64 :=
    h.fits _ (List.mem_of_getElem? (i := 2) rfl)
  have hslots := h.of_lt (by decide : 0 < 2) rfl rfl
  have henv := h.of_lt (by decide : 1 < 2) rfl rfl
  dsimp only at hslots henv
  have haddress : (m.stackAddress w).toNat = m.heap.place.stackBase + 8 * w := by
    rw [stackAddress, BitVec.toNat_ofNat, Nat.mod_eq_of_lt (by omega)]
  have hnotSlot : ¬ (m.heap.place.slotBase ≤ m.heap.place.stackBase + 8 * w ∧
      m.heap.place.stackBase + 8 * w < m.heap.place.slotBase + 16 * m.slots.size) := by omega
  have hnotEnv : ¬ m.heap.place.stackBase + 8 * w = m.heap.place.envBase := by omega
  have hin : m.heap.place.stackBase ≤ m.heap.place.stackBase + 8 * w ∧
      m.heap.place.stackBase + 8 * w < m.heap.place.stackBase + 8 * m.stack.size := by omega
  unfold cell?
  simp only [haddress, if_neg hnotSlot, if_neg hnotEnv, if_pos hin, Nat.add_sub_cancel_left,
    Nat.mul_mod_right, Nat.mul_div_cancel_left w (by decide : 0 < 8), if_true]

/-- The word below on the native stack. -/
theorem stackAddress_sub (m : Memory) (w : Nat) :
    (m.stackAddress (w + 1)).sub 8 = m.stackAddress w := by
  rw [Word.sub_eq, stackAddress, stackAddress, Nat.mul_succ, ← Nat.add_assoc, BitVec.ofNat_add]
  exact BitVec.add_sub_cancel _ _

/-- The word above on the native stack. -/
theorem stackAddress_add (m : Memory) (w : Nat) :
    (m.stackAddress w).add 8 = m.stackAddress (w + 1) := by
  rw [Word.add_eq, stackAddress, stackAddress, Nat.mul_succ, ← Nat.add_assoc]
  exact (BitVec.ofNat_add _ _).symm

end Memory

/-- The stack pointer is at a word of the native stack. -/
structure State.AtWord (w : Nat) (s : State) : Prop where
  rsp : s.reg .rsp = s.memory.stackAddress w
  apart : s.memory.RunApart

/-- Nothing is different but the stack pointer and words of the native stack below a word. -/
structure State.StacksBelow (w : Nat) (s t : State) : Prop where
  regs : ∀ r, r ≠ .rsp → t.reg r = s.reg r
  slots : t.memory.slots = s.memory.slots
  heap : t.memory.heap = s.memory.heap
  size : t.memory.stack.size = s.memory.stack.size
  words : ∀ i, w ≤ i → t.memory.stack[i]? = s.memory.stack[i]?
  lines : t.lines = s.lines

section Stack

variable {s : State} {w : Nat}

/-- Pushing registers. -/
theorem leads_pushes (regs : List Reg) (h : s.AtWord (w + regs.length))
    (hin : w + regs.length ≤ s.memory.stack.size) :
    ∃ t, Leads (regs.map fun r => .instr (.push r)) s t ∧ t.AtWord w ∧
      s.StacksBelow (w + regs.length) t := by
  induction regs generalizing s with
  | nil => exact ⟨s, ⟨[], rfl, .nil s⟩, h, fun _ _ => rfl, rfl, rfl, rfl, fun _ _ => rfl, rfl⟩
  | cons r rest ih =>
      rw [List.length_cons, ← Nat.add_assoc] at h hin
      let top := w + rest.length
      let stored : State := { s with memory.stack := s.memory.stack.modify top fun _ => s.reg r }
      let pushed := stored.setReg .rsp (s.memory.stackAddress top)
      have hexec : ∀ hosts rip, execute hosts { s with rip } (.push r) =
          .next { pushed with rip } := by
        intro hosts rip
        have haddress : (State.reg { s with rip } .rsp).sub 8 = s.memory.stackAddress top := by
          rw [show State.reg { s with rip } .rsp = s.memory.stackAddress (top + 1) from h.rsp,
            Memory.stackAddress_sub]
        have hcell := h.apart.cell?_stackAddress (w := top) (by omega)
        rw [execute, State.push, haddress, State.storing_of_cell (s := { s with rip }) hcell rfl]
        show Progress.next (State.setReg _ .rsp ((State.reg { s with rip } .rsp).sub 8)) = _
        rw [haddress]
        rfl
      have hat : pushed.AtWord (w + rest.length) :=
        ⟨State.reg_setReg_same _ _ _, h.apart.congr rfl rfl (Array.size_modify ..)⟩
      have hsize : pushed.memory.stack.size = s.memory.stack.size := by simp [pushed, stored]
      obtain ⟨t, hleads, hword, hbelow⟩ := ih hat (by omega)
      refine ⟨t, .cons hexec hleads, hword, fun r' hr' => ?_, hbelow.slots, hbelow.heap,
        hbelow.size.trans hsize, fun i hi => ?_, hbelow.lines⟩
      · exact (hbelow.regs r' hr').trans (State.reg_setReg_of_ne _ _ _ hr')
      · rw [List.length_cons] at hi
        rw [hbelow.words i (by omega)]
        show (s.memory.stack.modify top fun _ => s.reg r)[i]? = _
        rw [Array.getElem?_modify, if_neg (by omega)]

/-- Popping a word into a continuation of the instruction. -/
theorem pop_eq {v : Word} (h : s.AtWord w) (hv : s.memory.stack[w]? = some v)
    (k : State → Word → Progress) :
    s.pop k = k (s.setReg .rsp (s.memory.stackAddress (w + 1))) v := by
  have hw := (Array.getElem?_eq_some_iff.mp hv).1
  have hread := read?_stack (h.apart.cell?_stackAddress hw) hv
  rw [State.pop, State.loading, h.rsp, hread, Memory.stackAddress_add]

/-- Popping registers. -/
theorem leads_pops (regs : List Reg) (hregs : .rsp ∉ regs) (h : s.AtWord w)
    (hin : w + regs.length ≤ s.memory.stack.size) :
    ∃ t, Leads (regs.map fun r => .instr (.pop r)) s t ∧ t.AtWord (w + regs.length) ∧
      OnlyRegs (.rsp :: regs) s t := by
  induction regs generalizing s w with
  | nil => exact ⟨s, ⟨[], rfl, .nil s⟩, h, fun _ _ => rfl, rfl, rfl⟩
  | cons r rest ih =>
      rw [List.mem_cons, not_or] at hregs
      rw [List.length_cons] at hin ⊢
      have hv := Array.getElem?_eq_getElem (show w < s.memory.stack.size by omega)
      let popped := (s.setReg .rsp (s.memory.stackAddress (w + 1))).setReg r s.memory.stack[w]
      have hexec : ∀ hosts rip, execute hosts { s with rip } (.pop r) =
          .next { popped with rip } := by
        intro hosts rip
        have hrip : State.AtWord w { s with rip } := ⟨h.rsp, h.apart⟩
        rw [execute, pop_eq hrip hv]
        rfl
      have hat : popped.AtWord (w + 1) :=
        ⟨(State.reg_setReg_of_ne _ _ _ hregs.1).trans (State.reg_setReg_same _ _ _), h.apart⟩
      have hkept : ∀ r', r' ≠ .rsp → r' ≠ r → popped.reg r' = s.reg r' := fun r' hrsp hr =>
        (State.reg_setReg_of_ne _ _ _ hr).trans (State.reg_setReg_of_ne _ _ _ hrsp)
      obtain ⟨t, hleads, hword, honly⟩ := ih hregs.2 hat
        (show w + 1 + rest.length ≤ s.memory.stack.size by omega)
      refine ⟨t, .cons hexec hleads, ?_, fun r' hr' => ?_, honly.memory, honly.lines⟩
      · rwa [Nat.add_assoc, Nat.add_comm 1] at hword
      · simp only [List.mem_cons, not_or] at hr'
        rw [honly.kept r' (by simp [hr'.1, hr'.2.2]), hkept r' hr'.1 hr'.2.1]

end Stack

/-! ### Registers and the slot below a frame -/

/-- Subtracting a constant from a register. -/
theorem execute_sub (s : State) (r : Reg) (imm : Int32) : ∃ flags, ∀ hosts rip,
    execute hosts { s with rip } (.aluImm .sub .qword r imm) =
      .next { { s with flags }.setReg r (s.reg r - Word.ofInt32 imm) with rip } := by
  refine ⟨(alu .sub (s.regPart .qword r) (constant .qword imm)).2, fun hosts rip => ?_⟩
  have hresult : ((alu .sub (s.regPart .qword r) (constant .qword imm)).1).setWidth 64 =
      s.reg r - Word.ofInt32 imm := by
    rw [alu]
    exact BitVec.setWidth_eq _
  rw [← hresult]
  rfl

/-- Adding a constant to a register. -/
theorem execute_add (s : State) (r : Reg) (imm : Int32) : ∃ flags, ∀ hosts rip,
    execute hosts { s with rip } (.aluImm .add .qword r imm) =
      .next { { s with flags }.setReg r (s.reg r + Word.ofInt32 imm) with rip } := by
  refine ⟨(alu .add (s.regPart .qword r) (constant .qword imm)).2, fun hosts rip => ?_⟩
  have hresult : ((alu .add (s.regPart .qword r) (constant .qword imm)).1).setWidth 64 =
      s.reg r + Word.ofInt32 imm := by
    rw [alu]
    exact BitVec.setWidth_eq _
  rw [← hresult]
  rfl

/-- Copying a register. -/
theorem execute_mov (s : State) (dst src : Reg) (hosts : Hosts) (rip : Word) :
    execute hosts { s with rip } (.mov .qword dst src) =
      .next { s.setReg dst (s.reg src) with rip } := by
  show Progress.next (State.setReg { s with rip } dst (BitVec.setWidth 64 (s.reg src))) = _
  rw [BitVec.setWidth_eq]
  rfl

/-- The slot below. -/
theorem slotAddress_sub (m : Memory) (j : Nat) :
    m.slotAddress (j + 1) + Word.ofInt32 (-slotSize) = m.slotAddress j := by
  rw [Memory.slotAddress, Memory.slotAddress, Nat.mul_succ, ← Nat.add_assoc, BitVec.ofNat_add,
    show Word.ofInt32 (-slotSize) = -16 from rfl, ← BitVec.sub_eq_add_neg]
  exact BitVec.add_sub_cancel _ _

/-- Storing the address to go on at below a frame. -/
theorem execute_storeBelow {s : State} {j : Nat}
    (hframe : s.reg frameReg = s.memory.slotAddress (j + 1))
    (hj : j < s.memory.slots.size) (hfit : s.memory.SlotsFit) (r : Reg) (hosts : Hosts)
    (rip : Word) : execute hosts { s with rip } (.store .qword (frameMem (-slotSize)) r) =
      .next { s.put j (.long (s.reg r)) with rip } := by
  have haddress : State.address { s with rip } (frameMem (-slotSize)) =
      s.memory.valueAddress .long j := by
    show (s.reg frameReg).add (Word.ofInt32 (-slotSize)) = _
    rw [Word.add_eq, hframe, slotAddress_sub]
    rfl
  have hcell := Memory.cell?_valueAddress hfit hj .long
  rw [execute, haddress, State.storing_of_cell (s := { s with rip }) hcell rfl]
  rfl

end SlotJit.Machine

namespace SlotJit.Engine

open SlotJit.CodeMemory SlotJit.Codegen SlotJit.Machine SlotJit.Semantics SlotJit.X64

/-! ### The stub in place -/

/-- Where an instruction of the stub is. -/
def stubOffset (k : Nat) : Nat := ((entryStub.take k).flatMap encode).length

/-- Where the stub goes on when a method returns. -/
def stubReturn : Word := regionAddress stubRegion (stubOffset 13)

/-- The bytes of instructions from one of them on. -/
theorem drop_flatMap_encode {instrs : List Instr} {k : Nat} {i : Instr} (h : instrs[k]? = some i) :
    (instrs.flatMap encode).drop ((instrs.take k).flatMap encode).length =
      encode i ++ (instrs.drop (k + 1)).flatMap encode := by
  obtain ⟨hlt, rfl⟩ := List.getElem?_eq_some_iff.mp h
  have hsplit :
      instrs.flatMap encode = (instrs.take k).flatMap encode ++ (instrs.drop k).flatMap encode := by
    rw [← List.flatMap_append, List.take_append_drop]
  rw [hsplit, List.drop_left, List.drop_eq_getElem_cons hlt, List.flatMap_cons]

/-- Instructions of the stub follow each other. -/
theorem stubOffset_succ {k : Nat} {i : Instr} (h : entryStub[k]? = some i) :
    stubOffset (k + 1) = stubOffset k + (encode i).length := by
  rw [stubOffset, List.take_add_one, h, Option.toList_some, List.flatMap_append, List.length_append,
    List.flatMap_singleton]
  rfl

/-- The stub is in place. -/
theorem placed_stub : Placed (entryStub.map .instr) stubOffset stubRegion := by
  let fresh : Region := { base := stubBase, size := entryStubBytes.length }
  have hwrite : fresh.write 0 entryStubBytes =
      ({ fresh with patches := Patch.add 0 entryStubBytes [] }, none) := by
    simp [Region.write, fresh]
  have hinstr : ∀ (k : Nat) (p : Piece), (entryStub.map Piece.instr)[k]? = some p →
      ∃ i, entryStub[k]? = some i ∧ p = .instr i := by
    intro k p hp
    rw [List.getElem?_map] at hp
    obtain ⟨i, hi, rfl⟩ := Option.map_eq_some_iff.mp hp
    exact ⟨i, hi, rfl⟩
  refine ⟨rfl, ?_, by decide +kernel, fun k hk => ?_, fun k id hk => ?_, fun k i hk => ?_,
    fun k cond target j hk => ?_, fun k cond target hk => ?_⟩
  · rw [stubOffset, List.length_map, List.take_length]
    rfl
  · rw [List.length_map] at hk
    rw [stubOffset_succ (List.getElem?_eq_getElem hk)]
    exact Nat.le_add_right _ _
  · obtain ⟨_, -, hi⟩ := hinstr k _ hk
    cases hi
  · obtain ⟨_, hi, heq⟩ := hinstr k _ hk
    cases heq
    exact ⟨instrAt?_of_drop (window_of_write rfl hwrite _ _) (drop_flatMap_encode hi),
      stubOffset_succ hi⟩
  · obtain ⟨_, -, hi⟩ := hinstr k _ hk
    cases hi
  · obtain ⟨_, -, hi⟩ := hinstr k _ hk
    cases hi

section Stub

variable {hosts : Hosts} {code : CodeMap}

/-- An instruction of the stub is executed where it is. -/
theorem step_stub (hstub : code.Shows stubRegion) {k : Nat} {i : Instr}
    (hi : entryStub[k]? = some i) (hne : i ≠ returnJump) (hosts : Hosts) (s : State) :
    NativeMachine.step hosts code stubRegion
      { s with rip := regionAddress stubRegion (stubOffset k) } = NativeMachine.ofProgress
        (execute hosts { s with rip := regionAddress stubRegion (stubOffset (k + 1)) } i) := by
  have hpiece : (entryStub.map Piece.instr)[k]? = some (.instr i) := by
    rw [List.getElem?_map, hi, Option.map_some]
  exact step_of_readsAt hstub placed_stub.mappable (placed_stub.instr k i hpiece)
    (placed_stub.offset_le (List.getElem?_eq_some_iff.mp hpiece).1) hne hosts s

/-! ### Entry and return -/

/-- The stub enters the code of a method. The frame is at slot one and the slot below it holds the
address where the stub goes on; no other slot is changed, and no array. The word below the stack
pointer is free, and the stack has the caller's address above the saved registers. -/
structure EnteredByStub (slots : Array Slot) (heap : Heap) (region : Region)
    (s : State) : Prop where
  rip : s.rip = regionAddress region 0
  frame : s.reg frameReg = s.memory.slotAddress 1
  env : s.reg envReg = BitVec.ofNat 64 heap.place.envBase
  top : s.AtWord (nativeStackWords - 8)
  slots : s.memory.slots = slots.modify 0 (Semantics.Value.long stubReturn).store
  heap : s.memory.heap = heap
  size : s.memory.stack.size = nativeStackWords
  caller : s.memory.stack[nativeStackWords - 1]? = some callerAddress
  lines : s.lines = []

/-- The first ten instructions of the stub save registers, reserve a word of the native stack, and
put the environment, the code address and the frame base into their registers. -/
theorem leads_setup {s : State} {w : Nat} (h : s.AtWord (w + 7))
    (hin : w + 7 ≤ s.memory.stack.size) :
    ∃ saved t, s.StacksBelow (w + 7) saved ∧ t.memory = saved.memory ∧ t.lines = saved.lines ∧
      Leads ((entryStub.take 10).map .instr) s t ∧ t.AtWord w ∧ t.reg envReg = s.reg .rdx ∧
      t.reg .rax = s.reg .rsi ∧ t.reg frameReg = s.reg .rdi + Word.ofInt32 slotSize := by
  obtain ⟨saved, hpushes, hsaved, hbelow⟩ := leads_pushes (w := w + 1) calleeSaved
    (show s.AtWord (w + 1 + calleeSaved.length) by rw [Nat.add_assoc]; exact h)
    (show w + 1 + calleeSaved.length ≤ _ by rw [Nat.add_assoc]; exact hin)
  obtain ⟨flags, hsub⟩ := execute_sub saved .rsp 8
  let reserved := State.setReg { saved with flags } .rsp (saved.reg .rsp - Word.ofInt32 8)
  let withEnv := reserved.setReg envReg (reserved.reg .rdx)
  let withCode := withEnv.setReg .rax (withEnv.reg .rsi)
  let ready := withCode.setReg frameReg (withCode.reg .rdi + Word.ofInt32 slotSize)
  have hkept : ∀ r, r ≠ .rsp → reserved.reg r = s.reg r := fun r hr =>
    (State.reg_setReg_of_ne _ _ _ hr).trans (hbelow.regs r hr)
  have hlea : ∀ hosts rip, execute hosts { withCode with rip }
      (.lea frameReg { base := .rdi, disp := slotSize }) = .next { ready with rip } :=
      fun _ _ => rfl
  have hregs : Leads [.instr (.aluImm .sub .qword .rsp 8), .instr (.mov .qword envReg .rdx),
      .instr (.mov .qword .rax .rsi), .instr (.lea frameReg { base := .rdi, disp := slotSize })]
      saved ready :=
    .cons hsub (.cons (execute_mov reserved envReg .rdx)
      (.cons (execute_mov withEnv .rax .rsi) (.single hlea)))
  have hrsp : ready.reg .rsp = saved.memory.stackAddress w := by
    have hreserved : ready.reg .rsp = saved.reg .rsp - Word.ofInt32 8 := by
      simp [ready, withCode, withEnv, reserved, State.reg_setReg_of_ne, frameReg, envReg]
    rw [hreserved, hsaved.rsp]
    exact saved.memory.stackAddress_sub w
  refine ⟨saved, ready, ?_, rfl, rfl, hpushes.append hregs, ⟨hrsp, hsaved.apart⟩, ?_, ?_, ?_⟩
  · rw [show w + 7 = w + 1 + calleeSaved.length by rw [Nat.add_assoc]; rfl]
    exact hbelow
  · simp [ready, withCode, withEnv, State.reg_setReg_of_ne, frameReg, envReg, hkept]
  · simp [ready, withCode, withEnv, State.reg_setReg_of_ne, frameReg, envReg, hkept]
  · simp [ready, withCode, withEnv, State.reg_setReg_of_ne, frameReg, envReg, hkept]

/-- From the caller to the code of a method. -/
theorem run_entry (hstub : code.Shows stubRegion) (hcaller : code.fetch callerAddress = none)
    {slots : Array Slot} {heap : Heap} (hpos : 0 < slots.size)
    (hapart : Apart (heap.place.runAreas slots.size nativeStackWords)) (region : Region)
    (hosts : Hosts) :
    ∃ t, Machine.run hosts code 13 (Env.entryState slots heap region) = .exhausted t ∧
      EnteredByStub slots heap region t := by
  let s := Env.entryState slots heap region
  have hsize : s.memory.stack.size = nativeStackWords := by simp [s, Env.entryState]
  have hword : s.AtWord (nativeStackWords - 8 + 7) :=
    ⟨State.reg_setReg_same _ _ _, by rw [Memory.RunApart, hsize]; exact hapart⟩
  have hrdi : s.reg .rdi = BitVec.ofNat 64 heap.place.slotBase := by
    simp [s, Env.entryState, State.reg_setReg_of_ne]
  have hrsi : s.reg .rsi = region.base.toBitVec := by
    simp [s, Env.entryState, State.reg_setReg_of_ne]
  have hrdx : s.reg .rdx = BitVec.ofNat 64 heap.place.envBase := by
    simp [s, Env.entryState, State.reg_setReg_of_ne]
  have hlast : s.memory.stack[nativeStackWords - 1]? = some callerAddress := by
    simp [s, Env.entryState, nativeStackWords]
  obtain ⟨saved, ready, hbelow, hmemory, hlines, hleads, htop, henv, hrax, hframe⟩ :=
    leads_setup hword (by rw [hsize]; decide)
  have hslots : ready.memory.slots = slots := by rw [hmemory, hbelow.slots]; rfl
  have hheap : ready.memory.heap = heap := by rw [hmemory, hbelow.heap]; rfl
  have hone : ready.reg frameReg = ready.memory.slotAddress (0 + 1) := by
    rw [hframe, hrdi, Memory.slotAddress, hheap, BitVec.ofNat_add]
    rfl
  have hsetup :=
    run_leads hstub placed_stub hleads (k := 0) (List.map_take ▸ List.take_prefix _ _) hosts
  -- The address to go on at is that of the instruction behind the jump.
  have hnext : (regionAddress stubRegion (stubOffset 11)).add (Word.ofInt32 6) = stubReturn := by
    decide +kernel
  let addressed := ready.setReg .rcx stubReturn
  have haddress : NativeMachine.step hosts code stubRegion
      { ready with rip := regionAddress stubRegion (stubOffset 10) } =
        .next { addressed with rip := regionAddress stubRegion (stubOffset 11) } := by
    refine (step_stub hstub rfl Instr.noConfusion hosts ready).trans ?_
    show Step.next (State.setReg { ready with rip := regionAddress stubRegion (stubOffset 11) } .rcx
      ((regionAddress stubRegion (stubOffset 11)).add (Word.ofInt32 6))) = _
    rw [hnext]
    rfl
  let stored := addressed.put 0 (.long stubReturn)
  have hstored : NativeMachine.step hosts code stubRegion
      { addressed with rip := regionAddress stubRegion (stubOffset 11) } =
        .next { stored with rip := regionAddress stubRegion (stubOffset 12) } := by
    refine (step_stub hstub rfl Instr.noConfusion hosts addressed).trans ?_
    have hone' : addressed.reg frameReg = addressed.memory.slotAddress (0 + 1) :=
      (State.reg_setReg_of_ne _ _ _ (by decide)).trans hone
    rw [execute_storeBelow hone' (show 0 < ready.memory.slots.size from hslots ▸ hpos)
      (show ready.memory.SlotsFit from htop.apart.slotsFit),
      show addressed.reg .rcx = stubReturn from State.reg_setReg_same _ _ _]
    rfl
  have hjump : NativeMachine.step hosts code stubRegion
      { stored with rip := regionAddress stubRegion (stubOffset 12) } =
        .next { stored with rip := regionAddress region 0 } := by
    refine (step_stub hstub rfl Instr.noConfusion hosts stored).trans ?_
    have hcode : stored.reg .rax = regionAddress region 0 := by
      rw [State.reg_put, State.reg_setReg_of_ne _ _ _ (by decide), hrax, hrsi, regionAddress]
      exact (BitVec.add_zero _).symm
    rw [← hcode]
    rfl
  have hrun : Semantics.run (NativeMachine.step hosts code stubRegion) (10 + 3) s =
      .next { stored with rip := regionAddress region 0 } := by
    have hfirst : { s with rip := regionAddress stubRegion (stubOffset 0) } = s := rfl
    rw [hfirst] at hsetup
    refine (run_add (m := 10) hsetup 3).trans ?_
    exact (run_succ_of_next haddress 2).trans
      ((run_succ_of_next hstored 1).trans (run_succ_of_next hjump 0))
  have hstoredSlots :
      stored.memory.slots = slots.modify 0 (Semantics.Value.long stubReturn).store := by
    show ready.memory.slots.modify 0 _ = _
    rw [hslots]
  refine ⟨_, run_of_native hcaller hrun, rfl, ?_, ?_, ⟨?_, ?_⟩, hstoredSlots, hheap, ?_, ?_, ?_⟩
  · exact (State.reg_setReg_of_ne _ _ _ (by decide)).trans hone
  · exact (State.reg_setReg_of_ne _ _ _ (by decide)).trans (henv.trans hrdx)
  · exact (State.reg_setReg_of_ne _ _ _ (by decide)).trans htop.rsp
  · exact htop.apart.congr rfl (Array.size_modify ..) rfl
  · show ready.memory.stack.size = _
    rw [hmemory, hbelow.size, hsize]
  · show ready.memory.stack[nativeStackWords - 1]? = _
    rw [hmemory, hbelow.words _ (by decide), hlast]
  · show ready.lines = _
    rw [hlines, hbelow.lines]
    rfl

/-- From the code of a method back to the caller, which gets what is in `rax`. -/
theorem run_exit (hstub : code.Shows stubRegion) (hcaller : code.fetch callerAddress = none)
    {s : State} (hrip : s.rip = stubReturn) (htop : s.AtWord (nativeStackWords - 8))
    (hsize : s.memory.stack.size = nativeStackWords)
    (hlast : s.memory.stack[nativeStackWords - 1]? = some callerAddress) (hosts : Hosts) (n : Nat) :
    ∃ t, Machine.run hosts code (9 + n) s = .finished t ∧ t.reg .rax = s.reg .rax ∧
      t.memory = s.memory ∧ t.lines = s.lines := by
  obtain ⟨flags, hadd⟩ := execute_add s .rsp 8
  let freed := State.setReg { s with flags } .rsp (s.reg .rsp + Word.ofInt32 8)
  have hfreed : freed.AtWord (nativeStackWords - 7) := by
    refine ⟨?_, htop.apart⟩
    rw [State.reg_setReg_same, htop.rsp]
    exact s.memory.stackAddress_add _
  obtain ⟨popped, hpops, hword, honly⟩ := leads_pops calleeSaved.reverse (by decide) hfreed
    (show _ ≤ s.memory.stack.size by rw [hsize]; decide)
  have hleads : Leads (.instr (.aluImm .add .qword .rsp 8) ::
      calleeSaved.reverse.map fun r => .instr (.pop r)) s popped := .cons hadd hpops
  have hrun := run_leads hstub placed_stub hleads (k := 13) ⟨[.instr .ret], rfl⟩ hosts
  have hfirst : { s with rip := regionAddress stubRegion (stubOffset 13) } = s := by
    rw [show regionAddress stubRegion (stubOffset 13) = s.rip from hrip.symm]
  rw [hfirst] at hrun
  -- The last word is where the caller waits.
  let returned := popped.setReg .rsp (popped.memory.stackAddress nativeStackWords)
  have hret : NativeMachine.step hosts code stubRegion
      { popped with rip := regionAddress stubRegion (stubOffset 20) } =
        .next { returned with rip := callerAddress } := by
    refine (step_stub hstub rfl Instr.noConfusion hosts popped).trans ?_
    have hat : State.AtWord (nativeStackWords - 1)
        { popped with rip := regionAddress stubRegion (stubOffset 21) } := ⟨hword.rsp, hword.apart⟩
    have hv : popped.memory.stack[nativeStackWords - 1]? = some callerAddress := by
      rw [honly.memory]
      exact hlast
    rw [execute, pop_eq hat hv]
    rfl
  refine ⟨{ returned with rip := callerAddress }, ?_, ?_, honly.memory, honly.lines⟩
  · have hback := run_of_native hcaller ((run_add (m := 7) hrun 1).trans (run_succ_of_next hret 0))
    rw [show 9 + n = 7 + 1 + (n + 1) by omega, run_add_of_exhausted hback, Machine.run, if_pos rfl]
  · show returned.reg .rax = _
    rw [State.reg_setReg_of_ne _ _ _ (by decide), honly.kept .rax (by decide)]
    exact State.reg_setReg_of_ne _ _ _ (by decide)

end Stub

end SlotJit.Engine

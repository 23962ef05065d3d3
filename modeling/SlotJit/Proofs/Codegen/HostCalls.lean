import SlotJit.Proofs.Codegen.Branching
import SlotJit.Proofs.Machine.Addresses

/-!
# Calls of host functions

Compiled code keeps its frame base in `rsi`, which is also the register of a second argument and one
that host functions need not keep. Around a call of a host function the frame base is kept in the
word at the top of the native stack.

`Fragment.run_toCall` and `Fragment.run_hostCall` say how the native machine gets to the call and
through it, for any code in front that leaves the arguments in their registers. A host function may
leave anything in the registers that functions need not keep; it keeps the others, and all slots.

## Main results

* `leads_loadArguments`: loading arguments into registers.
* `Fragment.run_toCall`, `Fragment.run_hostCall`: calls.
* `deposits_modify`: what storing a value changes.
-/

namespace SlotJit.Codegen

open SlotJit.CodeMemory SlotJit.Ir SlotJit.Machine SlotJit.Semantics SlotJit.X64

/-! ### Registers -/

/-- What is seen of a frame is the same as long as its base and all slots are. -/
theorem sees_congr {base count : Nat} {frame : Frame} {s t : State} (hs : s.Sees base count frame)
    (hbase : t.reg frameReg = s.reg frameReg) (hslots : t.memory.slots = s.memory.slots)
    (hplace : t.memory.heap.place = s.memory.heap.place) : t.Sees base count frame := by
  refine ⟨⟨?_, ?_, ?_⟩, ?_⟩
  · rw [hbase, hs.rsi, Memory.slotAddress, Memory.slotAddress, hplace]
  · rw [hslots]
    exact hs.fits
  · exact hs.slotsFit.congr hplace (by rw [hslots])
  · rw [hslots]
    exact hs.slots

/-- Nothing is different but the content of some registers. -/
structure OnlyRegs (regs : List Reg) (s t : State) : Prop where
  kept : ∀ r, r ∉ regs → t.reg r = s.reg r
  memory : t.memory = s.memory
  lines : t.lines = s.lines

namespace OnlyRegs

variable {regs regs' : List Reg} {s t u : State}

/-- No register changes. -/
theorem refl (s : State) : OnlyRegs [] s s := ⟨fun _ _ => rfl, rfl, rfl⟩

/-- Registers change, and then others. -/
theorem trans (h : OnlyRegs regs s t) (h' : OnlyRegs regs' t u) : OnlyRegs (regs ++ regs') s u := by
  refine ⟨fun r hr => ?_, h'.memory.trans h.memory, h'.lines.trans h.lines⟩
  rw [List.mem_append, not_or] at hr
  exact (h'.kept r hr.2).trans (h.kept r hr.1)

/-- One register changes. -/
theorem setReg (s : State) (r : Reg) (w : Word) : OnlyRegs [r] s (s.setReg r w) :=
  ⟨fun _ hr => s.reg_setReg_of_ne r w (List.mem_singleton.not.mp hr), rfl, rfl⟩

/-- What is seen of a frame is the same unless the frame base was changed. -/
theorem sees {base count : Nat} {frame : Frame} (h : OnlyRegs regs s t) (hbase : frameReg ∉ regs)
    (hs : s.Sees base count frame) : t.Sees base count frame :=
  sees_congr hs (h.kept _ hbase) (by rw [h.memory]) (by rw [h.memory])

end OnlyRegs

/-! ### Arguments -/

section Arguments

variable {base count : Nat} {frame : Frame} {s : State} {inst : Inst} {pieces : List Piece}

/-- Arguments are loaded into registers of their own. They are read from the frame, so the register
of the frame base may only be the last. -/
theorem leads_loadArguments {loads : List (Reg × ValueType × Operand)}
    (hs : s.Sees base count frame) (hcount : count < 2 ^ 31)
    (hin : ∀ load ∈ loads, ∀ index, load.2.2 = .slot index → index < count)
    (hapart : loads.Pairwise fun load later => load.1 ≠ frameReg ∧ load.1 ≠ later.1)
    (h : loadArguments inst loads = .ok pieces) :
    ∃ t, Leads pieces s t ∧ OnlyRegs (loads.map Prod.fst) s t ∧ ∀ load ∈ loads,
      operandBits? frame load.2.1 load.2.2 = some (t.regPart (sizeOf load.2.1) load.1) := by
  induction loads generalizing s pieces with
  | nil =>
      cases h
      exact ⟨s, ⟨[], rfl, .nil s⟩, .refl s, fun _ hmem => absurd hmem List.not_mem_nil⟩
  | cons first rest ih =>
      obtain ⟨reg, ty, operand⟩ := first
      obtain ⟨loaded, hload, h⟩ := bind_eq_ok.mp h
      obtain ⟨others, hothers, h⟩ := bind_eq_ok.mp h
      cases h
      obtain ⟨hfirst, hapart⟩ := List.pairwise_cons.mp hapart
      obtain ⟨x, hx, hleads⟩ := leads_loadPart hs hcount (hin _ List.mem_cons_self) hload
      have honly : OnlyRegs [reg] s (s.setPart (sizeOf ty) reg x) := .setReg s reg _
      have hrest := fun load hload => hin load (List.mem_cons_of_mem _ hload)
      cases rest with
      | nil =>
          cases hothers
          refine ⟨_, by rw [List.append_nil]; exact hleads, honly, fun load hmem => ?_⟩
          rw [List.mem_singleton.mp hmem, hx, regPart_setPart_same]
      | cons second rest =>
          have hbase : frameReg ∉ [reg] := by
            rw [List.mem_singleton]
            exact (hfirst second List.mem_cons_self).1.symm
          obtain ⟨t, hleads', honly', hbits⟩ := ih (honly.sees hbase hs) hrest hapart hothers
          refine ⟨t, hleads.append hleads', honly.trans honly', fun load hmem => ?_⟩
          rcases List.mem_cons.mp hmem with rfl | hmem
          · have hreg : reg ∉ (second :: rest).map Prod.fst := by
              intro hmem
              obtain ⟨later, hlater, heq⟩ := List.mem_map.mp hmem
              exact (hfirst later hlater).2 heq.symm
            have hkept :
                t.regPart (sizeOf ty) reg = (s.setPart (sizeOf ty) reg x).regPart (sizeOf ty) reg :=
              congrArg (Word.low _) (honly'.kept reg hreg)
            rw [hx, hkept, regPart_setPart_same]
          · exact hbits load hmem

end Arguments

/-! ### The word at the top of the native stack -/

/-- The state after the frame base was stored to a word of the native stack. -/
def spilled (s : State) (word : Nat) : State :=
  { s with memory.stack := s.memory.stack.modify word fun _ => s.reg frameReg }

section Spill

variable {base count word : Nat} {frame : Frame} {s : State}

/-- The frame base is kept at the top of the native stack. -/
theorem address_spillMem (s : State) : s.address spillMem = s.reg .rsp := BitVec.add_zero _

/-- Reading a word of the native stack. -/
theorem read?_stack {m : Memory} {a w : Word} (hcell : m.cell? a = some (.stack word))
    (hw : m.stack[word]? = some w) : m.read? .qword a = some w := by
  unfold Memory.read?
  rw [hcell]
  simp [hw, Memory.part]

/-- Keeping the frame base. -/
theorem leads_saveFrame (hword : s.memory.cell? (s.reg .rsp) = some (.stack word)) :
    Leads [saveFrame] s (spilled s word) := by
  refine .single fun hosts rip => ?_
  have hcell : (State.memory { s with rip }).cell? (State.address { s with rip } spillMem) =
      some (.stack word) := by
    rw [address_spillMem]
    exact hword
  rw [execute, State.storing_of_cell hcell rfl]
  rfl

/-- What is seen of a frame is the same. -/
theorem sees_spilled (hs : s.Sees base count frame) (word : Nat) :
    (spilled s word).Sees base count frame :=
  ⟨⟨hs.rsi, hs.fits, hs.slotsFit⟩, hs.slots⟩

/-- The word is still at the top, and holds the frame base. -/
theorem stack_spilled (hword : s.memory.cell? (s.reg .rsp) = some (.stack word)) :
    (spilled s word).memory.cell? (s.reg .rsp) = some (.stack word) ∧
      (spilled s word).memory.stack[word]? = some (s.reg frameReg) := by
  obtain ⟨hlt, hcell⟩ :=
    @Memory.cell?_stack_congr s.memory (spilled s word).memory _ _ hword rfl rfl (by simp [spilled])
  refine ⟨hcell, ?_⟩
  rw [spilled, Array.getElem?_modify, if_pos rfl, Array.getElem?_eq_getElem hlt, Option.map_some]

end Spill

/-! ### Host functions -/

/-- Writing registers leaves memory alone. -/
theorem memory_foldl_setReg (regs : List Reg) (g : Reg → Word) (s : State) :
    (regs.foldl (fun s r => s.setReg r (g r)) s).memory = s.memory := by
  induction regs generalizing s with
  | nil => rfl
  | cons r rest ih => exact ih _

/-- A register that is not among those written stays. -/
theorem reg_foldl_setReg {regs : List Reg} (g : Reg → Word) (s : State) {r : Reg} (hr : r ∉ regs) :
    (regs.foldl (fun s r => s.setReg r (g r)) s).reg r = s.reg r := by
  induction regs generalizing s with
  | nil => rfl
  | cons r' rest ih =>
      rw [List.mem_cons, not_or] at hr
      rw [List.foldl_cons, ih _ hr.2, State.reg_setReg_of_ne _ _ _ hr.1]

/-- A host function returned a word: it may have changed the heap and any register that functions
need not keep, and nothing else. -/
structure Returned (result : HostResult) (w : Word) (s t : State) : Prop where
  rax : t.reg .rax = w
  kept : ∀ r, r ≠ .rax → r ∉ callerSaved → t.reg r = s.reg r
  memory : t.memory = { s.memory with heap := result.heap }

/-- The call of a host function that returns. -/
theorem execute_callReg {hosts : Hosts} {s : State} {f : HostFunction} {w : Word}
    (hhost : hosts (s.reg .rax) = some f)
    (hvalue : (f s.memory.heap (hostArguments.map s.reg)).value = some w) :
    ∃ t, Returned (f s.memory.heap (hostArguments.map s.reg)) w s t ∧
      ∀ rip, execute hosts { s with rip } (.callReg .rax) = .next { t with rip } := by
  let result := f s.memory.heap (hostArguments.map s.reg)
  let called := { s with memory.heap := result.heap }
  refine ⟨(afterHost result called).setReg .rax w, ⟨State.reg_setReg_same _ _ _, ?_, ?_⟩,
    fun rip => ?_⟩
  · intro r hrax hr
    rw [State.reg_setReg_of_ne _ _ _ hrax]
    exact reg_foldl_setReg _ _ hr
  · exact memory_foldl_setReg _ _ _
  · have hhost' : hosts (State.reg { s with rip } .rax) = some f := hhost
    have hvalue' : (f (State.memory { s with rip }).heap
        (hostArguments.map (State.reg { s with rip }))).value = some w := hvalue
    rw [execute, hhost']
    simp only [Machine.callHost, hvalue']
    rfl

/-! ### Stored values -/

/-- The bytes of a slot where values of a type are. -/
def Covers (ty : ValueType) (k : Nat) : Prop :=
  (location ty).2.toInt.toNat ≤ k ∧ k < (location ty).2.toInt.toNat + width (sizeOf ty) / 8

/-- Storing a value changes no other byte of a slot. -/
theorem byte_store_of_not_covers {v : Value} {k : Nat} (hk : ¬ Covers v.type k) (slot : Slot) :
    (v.store slot).byte k = slot.byte k := by
  have hfirst : (location v.type).2.toInt.toNat = if v.type = .ref then 8 else 0 := by
    cases v.type <;> decide
  rw [Covers, hfirst] at hk
  cases v with
  | int x | float x =>
      have hk : 4 ≤ k := by simpa [Value.type, sizeOf, location, width] using hk
      exact @Slot.byte_store .int (.int x) rfl k hk slot
  | long x | double x =>
      have hk : 8 ≤ k := by simpa [Value.type, sizeOf, location, width] using hk
      exact @Slot.byte_store .long (.long x) rfl k hk slot
  | ref x =>
      have hk : 8 ≤ k → 16 ≤ k := by simpa [Value.type, sizeOf, location, width] using hk
      by_cases hlow : k < 8
      · simp [Slot.byte, hlow, Value.store]
      · -- There are no bytes past the reference.
        simp only [Slot.byte, hlow, if_false, Value.store]
        ext i hi
        rw [BitVec.getElem_extractLsb', BitVec.getElem_extractLsb',
          BitVec.getLsbD_of_ge _ _ (by omega), BitVec.getLsbD_of_ge _ _ (by omega)]

/-- A value was stored to a slot: it is in the part of the slot where values of its type are, and no
other byte of any slot is different. -/
structure Deposits (j : Nat) (v : Value) (before after : Array Slot) : Prop where
  value : (after[j]?).map (Value.ofSlot v.type) = some v
  bytes : ∀ i k, ¬ (i = j ∧ Covers v.type k) →
    (after[i]?).map (Slot.byte k) = (before[i]?).map (Slot.byte k)

/-- A store of a value in a slot. -/
theorem deposits_modify {j : Nat} {slots : Array Slot} (hj : j < slots.size) (v : Value) :
    Deposits j v slots (slots.modify j v.store) := by
  refine ⟨?_, fun i k hik => ?_⟩
  · rw [Array.getElem?_modify, if_pos rfl, Array.getElem?_eq_getElem hj, Option.map_some,
      Option.map_some, Value.ofSlot_store]
  · rw [Array.getElem?_modify]
    split
    · rename_i heq
      rw [Option.map_map]
      exact congrArg (Option.map · _) (funext fun slot =>
        byte_store_of_not_covers (fun hcovers => hik ⟨heq.symm, hcovers⟩) slot)
    · rfl

/-! ### Runs -/

/-- The native machine traps with an invalid opcode, in a state of some kind. -/
def Traps (hosts : Hosts) (code : CodeMap) (region : Region) (s : State)
    (P : State → Prop) : Prop :=
  ∃ n t, run (NativeMachine.step hosts code region) n s = .halt (.trapped .ill) t ∧ P t

/-- The native machine gets to an offset of the region, in a state of some kind. -/
def Arrives (hosts : Hosts) (code : CodeMap) (region : Region) (s : State) (finish : Nat)
    (P : State → Prop) : Prop :=
  ∃ n t, run (NativeMachine.step hosts code region) n s = .next t ∧
    t.rip = regionAddress region finish ∧ P t

/-! ### Calls -/

/-- Compiled code goes on after a host function returned a word. The frame base is in its register
again, and slots and all registers that functions keep are as they were. -/
structure Resumed (result : HostResult) (w : Word) (s t : State) : Prop where
  rax : t.reg .rax = w
  frame : t.reg frameReg = s.reg frameReg
  kept : ∀ r, r ≠ .rax → r ∉ callerSaved → t.reg r = s.reg r
  slots : t.memory.slots = s.memory.slots
  heap : t.memory.heap = result.heap

/-- After a call the frame is as before. -/
theorem Resumed.sees {result : HostResult} {w : Word} {s t : State} {base count : Nat}
    {frame : Frame} (h : Resumed result w s t) (hplace : result.heap.place = s.memory.heap.place)
    (hs : s.Sees base count frame) : t.Sees base count frame :=
  sees_congr hs h.frame h.slots (by rw [h.heap, hplace])

namespace Fragment

variable {code : CodeMap} {region : Region} {front back : List Piece} {place : Nat → Nat}
  {n word : Nat} {address : UInt64} {s t : State}

/-- The native machine gets to the call with the address of the host function in `rax`. -/
theorem run_toCall (h : Fragment code region (front ++ (callHost address ++ back)) place)
    (hcompact : Compact n (front ++ (callHost address ++ back))) (hn : n < 2 ^ 20)
    (hfront : Leads front s t) (hosts : Hosts) :
    ∃ m, run (NativeMachine.step hosts code region) m
      { s with rip := regionAddress region (place 0) } =
      .next { t.setReg .rax address.toBitVec with
        rip := regionAddress region (place (front.length + 1)) } := by
  have hload : Reaches (callHost address ++ back) 0 t 1 (t.setReg .rax address.toBitVec) :=
    .instr rfl (fun _ _ => rfl) (.refl 1 _)
  have hpath :=
    (hfront.reaches.append_right (callHost address ++ back)).trans (hload.append_left front)
  exact h.run_reaches hcompact hn hpath hosts

/-- The native machine goes through a call of a host function that returns, after the frame base was
kept and arguments were put into registers. -/
theorem run_hostCall (h : Fragment code region (front ++ (callHost address ++ back)) place)
    (hcompact : Compact n (front ++ (callHost address ++ back))) (hn : n < 2 ^ 20)
    (hfront : Leads front s t) {regs : List Reg} (honly : OnlyRegs regs (spilled s word) t)
    (hregs : ∀ r ∈ regs, r ∈ hostArguments)
    (hword : s.memory.cell? (s.reg .rsp) = some (.stack word)) {hosts : Hosts} {f : HostFunction}
    {w : Word} (hhost : hosts address.toBitVec = some f)
    (hvalue : (f s.memory.heap (hostArguments.map t.reg)).value = some w)
    (hplace : (f s.memory.heap (hostArguments.map t.reg)).heap.place = s.memory.heap.place) :
    ∃ m u, run (NativeMachine.step hosts code region) m
        { s with rip := regionAddress region (place 0) } =
        .next { u with rip := regionAddress region (place (front.length + 3)) } ∧
      Resumed (f s.memory.heap (hostArguments.map t.reg)) w s u := by
  obtain ⟨m, hto⟩ := h.run_toCall hcompact hn hfront hosts
  let called := t.setReg .rax address.toBitVec
  have hmemory : called.memory = (spilled s word).memory := honly.memory
  -- The address is in no argument register, so the host function gets what the code in front left.
  have hargs : hostArguments.map called.reg = hostArguments.map t.reg :=
    List.map_congr_left fun r hr => State.reg_setReg_of_ne _ _ _ (by rintro rfl; revert hr; decide)
  have hheap : called.memory.heap = s.memory.heap := by rw [hmemory]; rfl
  have hhost' : hosts (called.reg .rax) = some f := by rw [State.reg_setReg_same, hhost]
  have hcall := execute_callReg hhost' (w := w) (by rw [hargs, hheap]; exact hvalue)
  rw [hargs, hheap] at hcall
  obtain ⟨u, hreturned, hexec⟩ := hcall
  have hcallPiece : (front ++ (callHost address ++ back))[front.length + 1]? =
      some (.instr (.callReg .rax)) := by
    rw [List.getElem?_append_right (Nat.le_add_right _ _), Nat.add_sub_cancel_left]
    rfl
  have hstep := h.step_instr hcallPiece Instr.noConfusion hosts called
  rw [hexec] at hstep
  have hkept : ∀ r, r ≠ .rax → r ∉ callerSaved → u.reg r = s.reg r := by
    intro r hrax hr
    have hmem : r ∉ regs :=
      fun hmem => hr ((by decide : ∀ r ∈ hostArguments, r ∈ callerSaved) r (hregs r hmem))
    exact (hreturned.kept r hrax hr).trans
      ((State.reg_setReg_of_ne _ _ _ hrax).trans (honly.kept r hmem))
  obtain ⟨htop, hsaved⟩ := stack_spilled hword
  rw [← hmemory] at htop hsaved
  obtain ⟨-, hcell⟩ := @Memory.cell?_stack_congr called.memory u.memory _ _ htop
    (by rw [hreturned.memory, hheap]; exact hplace) (by rw [hreturned.memory])
    (by rw [hreturned.memory])
  have hrestore : ∀ hosts rip, execute hosts { u with rip } (.load .qword frameReg spillMem) =
      .next { u.setReg frameReg (s.reg frameReg) with rip } := by
    intro hosts rip
    have hread :
        (State.memory { u with rip }).read? .qword (State.address { u with rip } spillMem) =
        some (s.reg frameReg) := by
      rw [address_spillMem]
      refine read?_stack ((hkept .rsp (by decide) (by decide)).symm ▸ hcell) ?_
      rw [hreturned.memory]
      exact hsaved
    rw [execute, State.loading, hread]
    rfl
  have hback : Reaches (callHost address ++ back) 2 u 3 (u.setReg frameReg (s.reg frameReg)) :=
    .instr rfl hrestore (.refl 3 _)
  obtain ⟨m', hfrom⟩ := h.run_reaches hcompact hn (hback.append_left front) hosts
  refine ⟨m + (m' + 1), u.setReg frameReg (s.reg frameReg), ?_, ?_, State.reg_setReg_same _ _ _,
    fun r hrax hr => ?_, ?_, ?_⟩
  · rw [run_add hto, run_succ_of_next hstep, hfrom]
  · rw [State.reg_setReg_of_ne _ _ _ (by decide), hreturned.rax]
  · have hne : r ≠ frameReg := by
      rintro rfl
      exact hr (by decide)
    rw [State.reg_setReg_of_ne _ _ _ hne, hkept r hrax hr]
  · show u.memory.slots = s.memory.slots
    rw [hreturned.memory, hmemory]
    rfl
  · show u.memory.heap = _
    rw [hreturned.memory]

end Fragment

end SlotJit.Codegen

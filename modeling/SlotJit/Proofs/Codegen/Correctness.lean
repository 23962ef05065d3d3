import SlotJit.Proofs.Codegen.Execution
import SlotJit.Proofs.Codegen.Success
import SlotJit.Proofs.Lowering.Correctness
import SlotJit.Proofs.Lowering.Footprint

/-!
# Code generation preserves meaning

The code of a body of the integer and control core does on the native machine what the body does on
the slot machine. Whenever the slot machine is at an instruction, the native machine is at the
offset of its code, the frame in memory has the content of the slot machine's frame, and all else is
as it was when the method was entered. The code of an instruction may be empty, but then the index
grows.

Lowered bodies never get stuck, and that is all that is used of where they come from, besides that
they stay in their frame.

## Main results

* `Assembled.matched`: one step of the slot machine.
* `compile_preserves_meaning`: the runs of the two machines.
-/

namespace SlotJit.Codegen

open SlotJit.CodeMemory SlotJit.Ir SlotJit.Machine SlotJit.Semantics SlotJit.Tables SlotJit.X64
open SlotJit.Lowering (lower lowers_of_lower inFrame_of_lower frameSlots_lt_of_lower)

/-- A body of the core whose code is in place in a region: after the stack check there is a block of
pieces for each instruction. -/
structure Assembled (body : Body) (region : Region) (pieces : List Piece) (offset start : Nat → Nat)
    (site : Site) : Prop where
  core : ∀ inst ∈ body.code, inst.kind.isCore = true
  inFrame : ∀ inst ∈ body.code, InFrame body.frameSlots inst
  frame : body.frameSlots < 2 ^ 31
  check : ∃ label check rest, stackCheck body.frameSlots label = .ok check ∧
    pieces = check ++ rest ∧ start 0 = check.length
  blocks : Blocks site (branchLabels body.code) 0 body.code pieces start
  placed : Placed pieces offset region
  size : region.size < 2 ^ 31

/-- The pieces of a body of the core that was lowered, in place in a region. -/
theorem exists_assembled_of_placed {context : Context} {owner : ClassTable} {source : Method}
    {body : Body} {site : Site} {region : Region} {pieces : List Piece} {offset : Nat → Nat}
    (hlower : lower context owner source = .ok body)
    (hcore : ∀ inst ∈ body.code, inst.kind.isCore = true)
    (hframe : site.frameSlots = body.frameSlots) (hpieces : bodyPieces site body.code = .ok pieces)
    (hplaced : Placed pieces offset region) (hsize : region.size < 2 ^ 31) :
    ∃ start, Assembled body region pieces offset start site := by
  obtain ⟨check, hcheck, hpieces⟩ := bind_eq_ok.mp hpieces
  obtain ⟨rest, hrest, hpieces⟩ := bind_eq_ok.mp hpieces
  cases hpieces
  rw [hframe] at hcheck
  obtain ⟨start, hzero, hblocks⟩ := exists_blocks hrest
  have hslots := frameSlots_lt_of_lower hlower
  refine ⟨_, hcore, inFrame_of_lower hlower, by omega, ?_, hblocks.append_left check,
    hplaced, hsize⟩
  exact ⟨_, check, rest, hcheck, rfl, by rw [hzero, Nat.add_zero]⟩

/-- A method of the core that was lowered and compiled. -/
theorem exists_assembled {context ctx : Context} {owner : ClassTable} {source method : Method}
    {natives : Natives} {alloc alloc' : Allocator} {id : SymbolId} {compiled : CompiledMethod}
    {relocations : List Relocation} (hlower : lower context owner source = .ok method.body)
    (hcore : ∀ inst ∈ method.body.code, inst.kind.isCore = true)
    (hcompile : compileMethod ctx natives alloc id method = (alloc', .ok (compiled, relocations)))
    (hsize : compiled.code.size < 2 ^ 31) :
    ∃ pieces offset start, Assembled method.body compiled.code pieces offset start
      ⟨ctx, natives, method.body.frameSlots⟩ := by
  obtain ⟨pieces, offset, -, hpieces, hplaced, -⟩ := placed_of_compileMethod hcompile
  exact ⟨pieces, offset, exists_assembled_of_placed hlower hcore rfl hpieces hplaced hsize⟩

/-! ### One step -/

/-- Where control is matters neither to the frame nor to the flags. -/
theorem mirrors_rip {base count : Nat} {core : Core} {s : State} (h : Mirrors base count core s)
    (rip : Word) : Mirrors base count core { s with rip } :=
  ⟨sees_rip h.sees rip, h.flags⟩

theorem kept_rip {base count : Nat} {s t : State} (h : Kept base count s t) (rip : Word) :
    Kept base count s { t with rip } :=
  ⟨h.regs, h.xmms, h.lines, h.heap, h.stack, h.size, h.slots⟩

/-- The native machine, which entered the method in state `s`, is where the slot machine is. -/
structure Follows (body : Body) (region : Region) (place : Nat → Nat) (base : Nat) (s : State)
    (sl : SlotMachine.State) (t : State) : Prop where
  rip : t.rip = regionAddress region (place sl.index)
  mirrors : Mirrors base body.frameSlots sl.core t
  kept : Kept base body.frameSlots s t

/-- The machines have come to the same end: the native machine leaves with the value in `rax`, or is
at the end of the code. -/
def SameEnding (body : Body) (base : Nat) (s : State) (outcome : Semantics.Outcome)
    (sl : SlotMachine.State) (ending : Ending) (t : State) : Prop :=
  Mirrors base body.frameSlots sl.core t ∧ Kept base body.frameSlots s t ∧
    match outcome with
    | .returned value => ending = .left ∧ ∀ v, value = some v → Value.ofBits v.type (t.reg .rax) = v
    | .ended => ending = .ended
    | .trapped .. => False

namespace Assembled

variable {body : Body} {region : Region} {pieces : List Piece} {offset start : Nat → Nat}
  {site : Site} {context : Context} {env : Environment} {frame : Frame} {hosts : Hosts}
  {code : CodeMap} {base : Nat} {s t : State}
  {sl : SlotMachine.State}
  (h : Assembled body region pieces offset start site)

include h

/-- Code that leads to a state where it stands. -/
theorem run_leads_at (hshows : code.Shows region) {part : List Piece} {k : Nat} {u : State}
    (hrip : t.rip = regionAddress region (offset k)) (hleads : Leads part t u)
    (hpart : part <+: pieces.drop k) (hosts : Hosts) :
    run (NativeMachine.step hosts code region) part.length t =
      .next { u with rip := regionAddress region (offset (k + part.length)) } := by
  have hrun := run_leads hshows h.placed hleads hpart hosts
  rwa [← hrip] at hrun

/-- A jump leads to its label if its condition holds, and to the next piece otherwise. -/
theorem run_jump (hshows : code.Shows region) {k j target : Nat} {cond : Option Cond}
    (hrip : t.rip = regionAddress region (offset k)) (hjump : pieces[k]? = some (.jump cond target))
    (hlabel : pieces[j]? = some (.label target)) (hosts : Hosts) :
    run (NativeMachine.step hosts code region) 1 t =
      .next { t with rip :=
        regionAddress region (if cond.all t.flags.holds = true then
          offset j else offset (k + 1)) } := by
  obtain ⟨i, hreads, hjumps⟩ := h.placed.jump k cond target j hjump hlabel
  obtain ⟨hk, -⟩ := List.getElem?_eq_some_iff.mp hjump
  obtain ⟨hj, -⟩ := List.getElem?_eq_some_iff.mp hlabel
  have hjumps := hjumps (h.placed.near h.size hk (Nat.le_of_lt hj))
  have hi : i ≠ returnJump := by
    rintro rfl
    cases hjumps
  have hstep := step_of_readsAt hshows h.placed.mappable hreads (h.placed.offset_le hk) hi hosts t
  rw [execute_jump hjumps, ← hrip] at hstep
  rw [run_one]
  exact hstep

/-- A step of the slot machine that it can make is matched by the native machine. -/
theorem matched (hshows : code.Shows region)
    (hstuck : SlotMachine.step context env body sl ≠ .stuck)
    (hnext : ∀ sl', SlotMachine.step context env body sl = .next sl' → sl'.index ≤ body.code.length)
    (hfollows : Follows body region (fun i => offset (start i)) base s sl t) (hosts : Hosts) :
    Matched (NativeMachine.step hosts code region)
      (Follows body region (fun i => offset (start i)) base s) (SameEnding body base s)
      (fun sl => body.code.length - sl.index) sl t (SlotMachine.step context env body sl) := by
  obtain ⟨hrip, hmirrors, hkept⟩ := hfollows
  cases hinst : body.code[sl.index]? with
  | none =>
      simp only [SlotMachine.step, hinst] at hstuck ⊢
      split at hstuck
      · rename_i hindex
        rw [if_pos hindex]
        refine ⟨1, .ended, t, ?_, hmirrors, hkept, rfl⟩
        rw [run_one, NativeMachine.step,
          if_pos (by rw [hrip, hindex, h.blocks.offset_last h.placed])]
      · exact absurd rfl hstuck
  | some inst =>
      have hmem := List.mem_of_getElem? hinst
      obtain ⟨hlt, -⟩ := List.getElem?_eq_some_iff.mp hinst
      obtain ⟨fresh, part, k, htemplate, hpart, hk, hend, -, -⟩ :=
        h.blocks.exists_code h.placed hinst
      have hrip' : t.rip = regionAddress region (offset k) := hrip.trans (by rw [hk])
      have hcarries := carries_execute hmirrors h.frame (h.inFrame inst hmem) (h.core inst hmem)
        htemplate context env
      simp only [SlotMachine.step, hinst] at hstuck hnext ⊢
      cases hexit : SlotMachine.execute context env sl.core inst with
      | stuck => exact absurd (by rw [hexit]) hstuck
      | fall core =>
          rw [hexit] at hcarries
          have hrank : body.code.length - (sl.index + 1) < body.code.length - sl.index := by omega
          obtain ⟨u, hleads, hkept', hmirrors'⟩ | ⟨cond, label, rfl, hholds, hmirrors'⟩ := hcarries
          · refine ⟨part.length, _, h.run_leads_at hshows hrip' hleads hpart hosts, ?_, .inr hrank⟩
            exact ⟨by rw [hend], mirrors_rip hmirrors' _, kept_rip (hkept.trans hkept') _⟩
          · have hjump := getElem?_of_isPrefix_drop (j := 0) hpart rfl
            obtain ⟨j, hlabel⟩ := h.placed.bound k _ _ hjump
            have hrun := h.run_jump hshows hrip' hjump hlabel hosts
            rw [Option.all_some, hholds, if_neg Bool.false_ne_true] at hrun
            exact ⟨1, _, hrun, ⟨by rw [← hend]; rfl, mirrors_rip hmirrors' _, kept_rip hkept _⟩,
              .inl Nat.one_pos⟩
      | goto target core =>
          rw [hexit] at hcarries hnext
          obtain ⟨cond, rfl, hholds, hmirrors'⟩ := hcarries
          have hlabel := h.blocks.label_of_jump hmem (h.core inst hmem) htemplate (hnext _ rfl)
          have hrun :=
            h.run_jump hshows hrip' (getElem?_of_isPrefix_drop (j := 0) hpart rfl) hlabel hosts
          rw [if_pos hholds] at hrun
          exact ⟨1, _, hrun, ⟨rfl, mirrors_rip hmirrors' _, kept_rip hkept _⟩, .inl Nat.one_pos⟩
      | halt outcome core =>
          rw [hexit] at hcarries
          obtain ⟨value, loaded, u, rfl, rfl, hleads, hkept', hmirrors', hvalue⟩ := hcarries
          have hrun :=
            h.run_leads_at hshows hrip' hleads ((List.prefix_append _ _).trans hpart) hosts
          have hreturn : pieces[k + loaded.length]? = some (.instr returnJump) :=
            getElem?_of_isPrefix_drop hpart (by simp)
          obtain ⟨hlt', -⟩ := List.getElem?_eq_some_iff.mp hreturn
          have hleft := step_returnJump hshows h.placed.mappable (h.placed.instr _ _ hreturn)
            (h.placed.offset_le hlt') hosts u
          exact ⟨loaded.length + 1, .left, _, (run_add hrun 1).trans ((run_one _).trans hleft),
            mirrors_rip hmirrors' _, kept_rip (hkept.trans hkept') _, rfl, hvalue⟩

/-- The stack check of a method that is entered leads to the code of its first instruction. -/
theorem follows_start (hshows : code.Shows region)
    (hentered : Entered base body.frameSlots frame region s) (hosts : Hosts) :
    ∃ t, run (NativeMachine.step hosts code region) 3 s = .next t ∧
      Follows body region (fun i => offset (start i)) base s (SlotMachine.start frame) t := by
  obtain ⟨label, check, rest, hcheck, hpieces, hstart⟩ := h.check
  obtain ⟨t, hbeside, hrun⟩ :=
    run_check hentered h.frame hshows h.placed h.size hcheck hpieces hosts
  refine ⟨_, hrun, ⟨by rw [← hstart]; rfl, ?_, kept_rip (.of_beside hbeside) _⟩⟩
  exact mirrors_rip ⟨hbeside.sees hentered.sees, fun order (horder : none = some order) =>
    nomatch horder⟩ _

/-- A body that never gets stuck and its code in step. -/
theorem exists_schedule (hshows : code.Shows region)
    (hentered : Entered base body.frameSlots frame region s)
    (hstuck : ∀ n, run (SlotMachine.step context env body) n (SlotMachine.start frame) ≠ .stuck)
    (hosts : Hosts) :
    ∃ schedule : Nat → Nat, (∀ n, schedule n ≤ schedule (n + 1)) ∧ (∀ m, ∃ n, m ≤ schedule n) ∧
      ∀ n, Step.Related (Follows body region (fun i => offset (start i)) base s)
        (SameEnding body base s)
        (run (SlotMachine.step context env body) n (SlotMachine.start frame))
        (run (NativeMachine.step hosts code region) (schedule n) s) := by
  obtain ⟨t, hcheck, hfollows⟩ := h.follows_start hshows hentered hosts
  -- States that the slot machine gets to are at an instruction or at the end.
  let Reached := fun sl =>
    ∃ n, run (SlotMachine.step context env body) n (SlotMachine.start frame) = .next sl
  have hstep : ∀ sl, Reached sl → SlotMachine.step context env body sl ≠ .stuck := by
    rintro sl ⟨n, hn⟩ hsl
    exact hstuck (n + 1) (by rw [run_add hn, run_one, hsl])
  have hnext : ∀ sl, Reached sl → ∀ sl', SlotMachine.step context env body sl = .next sl' →
      Reached sl' := by
    rintro sl ⟨n, hn⟩ sl' hsl
    exact ⟨n + 1, by rw [run_add hn, run_one, hsl]⟩
  have hindex : ∀ sl, Reached sl → sl.index ≤ body.code.length := by
    intro sl hsl
    refine Nat.le_of_not_lt fun hlt => hstep sl hsl ?_
    rw [SlotMachine.step, List.getElem?_eq_none (Nat.le_of_lt hlt)]
    exact if_neg (Nat.ne_of_gt hlt)
  have hmatched : ∀ sl t, Reached sl ∧ Follows body region (fun i => offset (start i)) base s sl t →
      Matched (NativeMachine.step hosts code region)
        (fun sl t => Reached sl ∧ Follows body region (fun i => offset (start i)) base s sl t)
        (SameEnding body base s) (fun sl => body.code.length - sl.index) sl t
        (SlotMachine.step context env body sl) := by
    rintro sl t ⟨hsl, hfollows⟩
    exact (h.matched hshows (hstep sl hsl)
      (fun sl' hsl' => hindex sl' (hnext sl hsl sl' hsl')) hfollows hosts).and (hnext sl hsl)
  obtain ⟨schedule, hmono, hunbounded, hrelated⟩ :=
    Semantics.exists_schedule hmatched ⟨⟨0, rfl⟩, hfollows⟩
  refine ⟨fun n =>
    3 + schedule n, fun n => Nat.add_le_add_left (hmono n) 3, fun m => ?_, fun n => ?_⟩
  · obtain ⟨n, hn⟩ := hunbounded m
    exact ⟨n, Nat.le_add_left_of_le hn⟩
  · rw [run_add hcheck]
    exact (hrelated n).imp (fun _ _ hfollows => hfollows.2) fun _ _ _ _ => id

end Assembled

/-! ### Methods -/

/-- The instructions of the core load no address of a method. -/
theorem loadCode_notMem_instructionPieces {site : Site} {labels : Std.HashSet Nat}
    {index fresh : Nat} {insts : List Inst} {pieces : List Piece}
    (hcore : ∀ inst ∈ insts, inst.kind.isCore = true)
    (h : instructionPieces site labels index fresh insts = .ok pieces) (callee : SymbolId) :
    .loadCode callee ∉ pieces := by
  have hlabel : ∀ index, .loadCode callee ∉ labelAt labels index := by
    intro index
    unfold labelAt
    split <;> simp
  induction insts generalizing index fresh pieces with
  | nil =>
      cases h
      exact hlabel index
  | cons inst insts ih =>
      obtain ⟨code, htemplate, h⟩ := bind_eq_ok.mp h
      obtain ⟨rest, hrest, h⟩ := bind_eq_ok.mp h
      cases h
      have hcode : .loadCode callee ∉ code := by
        obtain ⟨instrs, rfl⟩ | ⟨-, cond, label, rfl, -⟩ :=
          template_cases (hcore inst List.mem_cons_self) htemplate
        · simp
        · simp
      have hrest := ih (fun inst hinst => hcore inst (List.mem_cons_of_mem _ hinst)) hrest
      simp [hlabel, hcode, hrest]

/-- The code of the core loads no address of a method. -/
theorem loadCode_notMem {site : Site} {insts : List Inst} {pieces : List Piece}
    (hcore : ∀ inst ∈ insts, inst.kind.isCore = true) (h : bodyPieces site insts = .ok pieces)
    (callee : SymbolId) : .loadCode callee ∉ pieces := by
  obtain ⟨check, hcheck, h⟩ := bind_eq_ok.mp h
  obtain ⟨rest, hrest, h⟩ := bind_eq_ok.mp h
  obtain ⟨disp, -, hcheck⟩ := bind_eq_ok.mp hcheck
  cases hcheck
  cases h
  simp [loadCode_notMem_instructionPieces hcore hrest]

/-- Pieces that load no address of a method have nothing to fill in. -/
theorem relocationsOf_eq_nil {pieces : List Piece} (h : ∀ callee, .loadCode callee ∉ pieces)
    (target : SymbolId) (items : List Item) : relocationsOf target pieces items = [] := by
  refine List.filterMap_eq_nil_iff.mpr fun ⟨piece, item⟩ hmem => ?_
  cases piece with
  | loadCode callee => exact absurd (List.of_mem_zip hmem).1 (h callee)
  | instr | jump | label => rfl

/-- **Code generation preserves meaning** on the integer and control core. Take a method that can be
lowered, all of whose instructions are of the core, and its code. Nothing in the code is left to be
linked. Wherever the frame is, whatever it holds and whatever else is in the machine, if the frame
passes the stack check, then there is a schedule by which the runs of the slot machine and of the
native machine go on together. After each step of the slot machine the native machine is at the code
of the instruction, the frame has the same content, and all registers but the scratch ones and all
slots outside of the frame are as they were on entry. The native machine comes to the jump by which
methods return exactly if the slot machine returns, and then has the value in `rax`; it comes to the
end of the code exactly if the slot machine does. The code has to be in reach of a jump. -/
theorem compile_preserves_meaning {context ctx : Context} {owner : ClassTable}
    {source method : Method} {natives : Natives} {alloc alloc' : Allocator} {id : SymbolId}
    {compiled : CompiledMethod} {relocations : List Relocation}
    (hctx : Positioned context)
    (hlower : lower context owner source = .ok method.body)
    (hcore : ∀ inst ∈ method.body.code, inst.kind.isCore = true)
    (hcompile : compileMethod ctx natives alloc id method = (alloc', .ok (compiled, relocations)))
    (hsize : compiled.code.size < 2 ^ 31) :
    relocations = [] ∧
    ∃ place : Nat → Nat, ∀ (hosts : Hosts) (code : CodeMap) (env : Environment) (base : Nat)
        (frame : Frame) (s : State), code.Shows compiled.code →
      Entered base method.body.frameSlots frame compiled.code s →
        ∃ schedule : Nat → Nat, (∀ n, schedule n ≤ schedule (n + 1)) ∧ (∀ m, ∃ n, m ≤ schedule n) ∧
          ∀ n, Step.Related (Follows method.body compiled.code place base s)
            (SameEnding method.body base s)
            (run (SlotMachine.step context env method.body) n (SlotMachine.start frame))
            (run (NativeMachine.step hosts code compiled.code) (schedule n) s) := by
  obtain ⟨stream, fin, hlowers⟩ := lowers_of_lower hctx hlower
  obtain ⟨pieces, offset, start, hassembled⟩ := exists_assembled hlower hcore hcompile hsize
  refine ⟨?_, fun i => offset (start i), fun hosts code env base frame s hshows hentered =>
    hassembled.exists_schedule hshows hentered (hlowers.run_ne_stuck env frame) hosts⟩
  obtain ⟨pieces, -, items, hpieces, -, rfl⟩ := placed_of_compileMethod hcompile
  exact relocationsOf_eq_nil (loadCode_notMem hcore hpieces) method.id items

/-- `countdown` after it was lowered. -/
def countdownMethod : Method := { Lowering.countdown with body := Lowering.countdownBody }

/-- The code of `countdown`. -/
def countdownPieces : List Piece :=
  [.instr (.lea .rax (frameMem 32)),
    .instr (.aluLoad .cmp .qword .rax { base := envReg, disp := 0 }),
    .jump (some .be) 6, .instr .trap, .label 6, .label 0, .instr (.load .dword .rax (frameMem 0)),
    .instr (.aluImm .cmp .dword .rax 0), .jump (some .e) 4,
    .instr (.aluStoreImm .add .dword (frameMem 0) (-1)), .jump none 0, .label 4,
    .instr (.load .dword .rax (frameMem 0)), .instr returnJump]

theorem bodyPieces_countdown :
    bodyPieces ⟨Lowering.countdownContext, fun _ => none, 2⟩ Lowering.countdownBody.code =
      .ok countdownPieces := by
  simp only [bodyPieces, instructionPieces, labelAt, contains_branchLabels, Lowering.countdownBody]
  decide +kernel

/-- Memory with some slots and no arrays. -/
def plainMemory : Memory :=
  { slots := .replicate 300 { scalar := 7 }, heap := { place := .ofSeed 0 0 }, stack := #[] }

/-- A machine that enters a region with its frame at the second slot. -/
def enteringState (region : Region) : State :=
  let s : State :=
    { regs := .replicate 16 0, xmms := .replicate 16 0, rip := regionAddress region 0,
      memory := plainMemory }
  (s.setReg frameReg (plainMemory.slotAddress 1)).setReg envReg
    (BitVec.ofNat 64 plainMemory.heap.place.envBase)

theorem entered_enteringState (region : Region) :
    Entered 1 2 (fun _ => { scalar := 7 }) region (enteringState region) := by
  have hfits : 1 + 2 ≤ plainMemory.slots.size - reservedSlots := by
    rw [plainMemory, Array.size_replicate]
    decide
  have henv : plainMemory.cell? (BitVec.ofNat 64 plainMemory.heap.place.envBase) = some .limit := by
    decide +kernel
  have hslotsFit : plainMemory.SlotsFit := by
    rw [Memory.SlotsFit, plainMemory, Array.size_replicate]
    decide
  refine ⟨rfl, ?_, ?_, hfits, hslotsFit, fun i hi => ?_⟩
  · exact (State.reg_setReg_of_ne _ _ _ (by decide)).trans (State.reg_setReg_same _ _ _)
  · rw [show (enteringState region).reg envReg = _ from State.reg_setReg_same _ _ _]
    exact henv
  · have hlt : 1 + i < 300 := by omega
    simp [enteringState, plainMemory, hlt]

/-- The code of `countdown` counts seven down to zero, whatever the code that runs with it. -/
theorem compile_preserves_meaning_countdown :
    ∃ compiled relocations alloc',
      compileMethod Lowering.countdownContext (fun _ => none) { next := Allocator.codeBase }
        countdownMethod.id countdownMethod = (alloc', .ok (compiled, relocations)) ∧
        relocations = [] ∧
      ∃ m t, run
          (NativeMachine.step (fun _ => none) (CodeMap.insert {} compiled.code) compiled.code) m
          (enteringState compiled.code) = .halt .left t ∧
        Value.ofBits .int (t.reg .rax) = .int 0 ∧
          t.reg .rsp = (enteringState compiled.code).reg .rsp := by
  let alloc : Allocator := { next := Allocator.codeBase }
  obtain ⟨compiled, relocations, alloc', hcompile, hbase, hsize⟩ :=
    @exists_compileMethod Lowering.countdownContext (fun _ => none) alloc countdownMethod.id
      countdownMethod _ rfl bodyPieces_countdown (by decide) (by decide) rfl (by decide)
      (show Allocator.codeBase.toNat + 2 * mappableSize ≤ addressCount by decide)
  have hsmall : compiled.code.size ≤ 210 := hsize
  have hshows : (CodeMap.insert {} compiled.code).Shows compiled.code := by
    refine shows_insert _ ?_ ?_
    · rw [hbase]
      decide
    · have hbase' : compiled.code.base.toNat = 0x7f0000000000 := congrArg UInt64.toNat hbase
      unfold addressCount
      omega
  obtain ⟨hrelocations, place, hruns⟩ := compile_preserves_meaning
    (positioned_of_indexed Lowering.indexed_countdownContext) Lowering.lower_countdown
    (by decide) hcompile (by omega)
  obtain ⟨schedule, -, -, hrelated⟩ := hruns (fun _ => none) _ Lowering.silent 1 _ _ hshows
    (entered_enteringState compiled.code)
  have hrel := hrelated 31
  rw [show run _ 31 _ = .halt (.returned (some (.int 0))) _ from rfl] at hrel
  obtain ⟨ending, t, hrun, -, hkept, hleft, hvalue⟩ := hrel.exists_halt
  cases hleft
  exact ⟨compiled, relocations, alloc', hcompile, hrelocations, schedule 31, t, hrun, hvalue _ rfl,
    hkept.regs .rsp (by decide) (by decide)⟩

end SlotJit.Codegen

import SlotJit.Proofs.Lowering.Execution
import SlotJit.Proofs.Lowering.Positions
import SlotJit.Proofs.Semantics.Schedule

/-!
# Lowering preserves meaning

The body that a method is lowered to does on the slot machine what the bytecode of the method does
on the stack machine. At every position the two machines correspond: the slot machine is at the code
of that position, and the symbolic stack that lowering had there stands for the operand stack. One
step of the stack machine is matched by the code of one instruction and the moves into the next
position. That code may be empty, but then the position grows.

## Main results

* `Lowers.matched`: one step of the stack machine.
-/

namespace SlotJit.Lowering

open SlotJit.Bytecode SlotJit.Ir SlotJit.Semantics SlotJit.Tables

/-- A routine was lowered to a body; lowering ended in `fin`. -/
structure Lowers (site : Site) (r : Routine) (stream : Stream) (fin : State)
    (body : Body) : Prop where
  describes : site.Describes r
  positioned : Positioned site.context
  scanned : Scanned r.code stream
  targets : site.targets = stream.targets
  lowered : Yields (stream.instrs.forM (lowerAt site)) {} () fin
  resolved : Resolved fin.positions fin.code.toList body.code

/-- A method that can be lowered. -/
theorem lowers_of_lower {context : Context} {owner : ClassTable} {method : Method} {body : Body}
    (hctx : Positioned context) (h : lower context owner method = .ok body) :
    ∃ stream fin, Lowers (.of context owner method stream) (.of context owner method) stream fin
      body := by
  obtain ⟨stream, fin, hlowered⟩ := exists_lowered h
  exact ⟨stream, fin, ⟨rfl, rfl, rfl⟩, hctx, scanned_of_scan hlowered.scan, rfl, hlowered.run,
    hlowered.resolved⟩

/-- The machines are at a position that lowering has a boundary for. -/
def Corresponds (site : Site) (fin : State) (stream : Stream) (stop : Nat) (st : StackMachine.State)
    (sl : SlotMachine.State) : Prop :=
  ∃ rest s, Boundary site fin stream.instrs stop rest st.pc s ∧ sl.index = s.code.size ∧
    sl.core.history = st.history ∧ Represents site s s.stack.entries st.stack st.locals sl.core

/-- The local variables have the same content, and the same has happened so far. -/
def Agree (maxLocals : Nat) (st : StackMachine.State) (sl : SlotMachine.State) : Prop :=
  (∀ i < maxLocals, sl.core.frame i = st.locals i) ∧ sl.core.history = st.history

/-- The machines have come to the same end. -/
def SameEnd (maxLocals : Nat) (outcome : Outcome) (st : StackMachine.State) (outcome' : Outcome)
    (sl : SlotMachine.State) : Prop :=
  outcome' = outcome ∧ Agree maxLocals st sl

namespace Lowers

variable {site : Site} {r : Routine} {stream : Stream} {fin : State} {body : Body}
  {st : StackMachine.State} {sl : SlotMachine.State} (h : Lowers site r stream fin body)

include h

theorem sensible : ∀ l ∈ stream.instrs, Sensible l ∧ l.pc < l.next := fun l hl =>
  ⟨fun target htarget => (h.scanned.targets l hl target htarget).1,
    lt_next_of_fetch? (h.scanned.fetch l hl)⟩

/-- No code is noted for the end of the bytecode. -/
theorem positions_stop : fin.positions[r.code.length]? = none := by
  have hadvances := advances_forM h.describes h.positioned (fun l hl => (h.sensible l hl).1)
    (holds_empty site) h.lowered
  have hlater : r.code.length ∉ stream.instrs.map Located.pc := by
    intro hmem
    obtain ⟨l, hl, heq⟩ := List.mem_map.mp hmem
    have hlt := (le_of_contiguous h.scanned.contiguous fun l hl => (h.sensible l hl).2).2 l hl
    omega
  rw [hadvances.positions _ hlater]
  simp

/-- Control that falls to a position from a state of lowering gets to the boundary there. -/
theorem fall {s : State} {rest : List Located} {core : Core} (hsuffix : rest <:+ stream.instrs)
    (hcontiguous : Contiguous st.pc rest r.code.length) (hs : Holds site s s.stack.entries)
    (hrest : Yields (rest.forM (lowerAt site)) s () fin) (hhistory : st.history = core.history)
    (hrep : Represents site s s.stack.entries st.stack st.locals core) (env : Environment) :
    ∃ m sl, run (SlotMachine.step site.context env body) m ⟨s.code.size, core⟩ = .next sl ∧
      Corresponds site fin stream r.code.length st sl := by
  obtain ⟨t, hboundary, moves, hmoves, hruns⟩ := exists_boundary h.describes h.positioned hsuffix
    hcontiguous h.sensible hs h.positions_stop hrest
  obtain ⟨core', hexec, hhistory', hrep'⟩ := hruns env st.stack st.locals core hrep
  obtain ⟨post, hpost⟩ := hboundary.code
  have hrun := run_chunk h.resolved (hmoves ▸ hpost).symm site.context env core
  rw [hexec] at hrun
  refine ⟨moves.length, ⟨t.code.size, core'⟩, ?_, rest, t, hboundary, rfl, ?_, hrep'⟩
  · have hsize : t.code.size = s.code.size + moves.length := by
      rw [← Array.length_toList, hmoves, List.length_append, Array.length_toList]
    rw [hsize]
    exact hrun
  · rw [hhistory, hhistory']

/-- Control that branches to a position gets to the boundary there. -/
theorem goto {s : State} {l : Located} {types : List ValueType} {core : Core}
    (hl : l ∈ stream.instrs) (hpc : l.pc = st.pc) (htarget : stream.targets.contains st.pc = true)
    (hknown : fin.entryTypes[st.pc]? = some types) (hhistory : st.history = core.history)
    (hrep : Represents site s (merged types) st.stack st.locals core) :
    Corresponds site fin stream r.code.length st ⟨fin.place st.pc, core⟩ := by
  obtain ⟨rest, t, hboundary⟩ := boundary_of_mem h.describes h.positioned h.scanned.contiguous
    h.sensible (holds_empty site) h.positions_stop h.lowered hl
  rw [hpc] at hboundary
  obtain ⟨types', hentries, hknown'⟩ := hboundary.continues.1 (h.targets ▸ htarget)
  obtain rfl : types' = types := Option.some.inj (hknown'.symm.trans hknown)
  refine ⟨l :: rest, t, hboundary, hboundary.place, hhistory.symm, ?_⟩
  rw [hentries]
  exact hrep.of_typed (map_valueType?_merged types') rfl

/-- At the end of the bytecode both machines come to a halt. -/
theorem matched_end {s : State} (env : Environment) (hpc : st.pc = r.code.length)
    (hindex : sl.index = s.code.size) (hcode : s.code = fin.code) (hagree : Agree r.maxLocals st sl)
    {rank : StackMachine.State → Nat} {R : StackMachine.State → SlotMachine.State → Prop} :
    Matched (SlotMachine.step site.context env body) R (SameEnd r.maxLocals) rank st sl
      (StackMachine.step r env st) := by
  have hfetch : fetch? r.code st.pc = none := by
    rw [fetch?, hpc, List.drop_length]
  have hlength : body.code.length = sl.index := by
    rw [h.resolved.length, Array.length_toList, hindex, hcode]
  have hstep : SlotMachine.step site.context env body sl = .halt .ended sl := by
    rw [SlotMachine.step, List.getElem?_eq_none (Nat.le_of_eq hlength)]
    exact if_pos hlength.symm
  rw [StackMachine.step, hfetch]
  simp only [hpc, if_true]
  exact ⟨1, .ended, sl, run_succ_of_halt hstep 0, rfl, hagree⟩

/-- One step of the stack machine is matched by the slot machine. -/
theorem matched (env : Environment)
    (hcorresponds : Corresponds site fin stream r.code.length st sl) :
    Matched (SlotMachine.step site.context env body) (Corresponds site fin stream r.code.length)
      (SameEnd r.maxLocals) (fun st => r.code.length - st.pc) st sl
        (StackMachine.step r env st) := by
  obtain ⟨rest, s, hboundary, hindex, hhistory, hrep⟩ := hcorresponds
  have hframe : ∀ i < r.maxLocals, sl.core.frame i = st.locals i :=
    h.describes.maxLocals ▸ hrep.frame
  obtain ⟨pc, locals, stack, history⟩ := st
  obtain ⟨index, core⟩ := sl
  obtain rfl : core.history = history := hhistory
  obtain rfl : index = s.code.size := hindex
  cases rest with
  | nil =>
      cases hboundary.contiguous
      exact h.matched_end env rfl rfl hboundary.continues ⟨hframe, rfl⟩
  | cons l rest =>
      obtain ⟨-, flow, u, t, hlower, hresume, hrest⟩ := hboundary.continues
      have hl : l ∈ stream.instrs := hboundary.suffix.subset List.mem_cons_self
      have hcontiguous := hboundary.contiguous
      cases hcontiguous with
      | cons _ hcontiguous =>
      have hsimulates := simulates_lowerInstr h.describes h.positioned (h.sensible l hl).1
        hboundary.holds hlower
      obtain ⟨ht, hcode, -, hentryTypes⟩ := hsimulates.holds.resume hresume
      have hsuffix : rest <:+ stream.instrs := (List.suffix_cons l rest).trans hboundary.suffix
      have hadvances := advances_forM h.describes h.positioned
        (fun l hl => (h.sensible l (hsuffix.subset hl)).1) ht hrest
      obtain ⟨chunk, hchunk, hruns⟩ := hsimulates.runs
      have hmatches := hruns env stack locals core hrep
      obtain ⟨post, hpost⟩ := hadvances.code
      rw [hcode, hchunk] at hpost
      have hrun := run_chunk h.resolved hpost.symm site.context env core
      rw [Array.length_toList] at hrun
      have hstep : StackMachine.step r env ⟨l.pc, locals, stack, core.history⟩ =
          StackMachine.execute r env ⟨l.pc, locals, stack, core.history⟩ l.next l.instr := by
        simp only [StackMachine.step, h.scanned.fetch l hl]
      rw [hstep]
      cases hsource :
        StackMachine.execute r env ⟨l.pc, locals, stack, core.history⟩ l.next l.instr with
      | stuck =>
          rw [hsource] at hmatches
          exact hmatches.elim
      | halt outcome st =>
          cases htarget : executeAll site.context env core chunk with
          | halt outcome' core' =>
              rw [hsource, htarget] at hmatches
              rw [htarget] at hrun
              obtain ⟨rfl, hhistory, hlocals⟩ := hmatches
              obtain ⟨m, index, hrun⟩ := hrun
              exact ⟨m, outcome, ⟨index, core'⟩, hrun, rfl, h.describes.maxLocals ▸ hlocals,
                hhistory.symm⟩
          | fall | goto | stuck =>
              rw [hsource, htarget] at hmatches
              exact hmatches.elim
      | next st =>
          cases htarget : executeAll site.context env core chunk with
          | halt | stuck =>
              rw [hsource, htarget] at hmatches
              exact hmatches.elim
          | fall core' =>
              rw [hsource, htarget] at hmatches
              rw [htarget] at hrun
              obtain ⟨rfl, hpc, hhistory, hrep'⟩ := hmatches
              obtain rfl : t = u := hresume
              rw [← hpc] at hcontiguous
              obtain ⟨m, sl, hmoves, hcorresponds⟩ :=
                h.fall hsuffix hcontiguous ht hrest hhistory hrep' env
              refine ⟨chunk.length + m, sl, ?_, hcorresponds, .inr ?_⟩
              · have hsize : t.code.size = s.code.size + chunk.length := by
                  rw [← Array.length_toList, hchunk, List.length_append, Array.length_toList]
                rw [run_add hrun, ← hsize]
                exact hmoves
              · have hlt := (h.sensible l hl).2
                have hstop := (le_of_contiguous hcontiguous fun l hl =>
                  (h.sensible l (hsuffix.subset hl)).2).1
                show r.code.length - st.pc < r.code.length - l.pc
                omega
          | goto target core' =>
              rw [hsource, htarget] at hmatches
              rw [htarget] at hrun
              obtain ⟨rfl, hgoes, hhistory, types, hknown, hrep'⟩ := hmatches
              obtain ⟨m, index, hpos, hindex, hrun⟩ := hrun
              obtain ⟨target, htarget, hpc⟩ := Option.map_eq_some_iff.mp hgoes
              obtain ⟨-, hcontains, l', hl', hpc'⟩ := h.scanned.targets l hl target htarget
              rw [hpc] at hcontains hpc'
              have hplace : fin.place st.pc = index := by rw [State.place, hindex, Option.getD_some]
              refine ⟨m, ⟨index, core'⟩, hrun, hplace ▸ ?_, .inl hpos⟩
              exact h.goto hl' hpc' hcontains (hadvances.entryTypes _ _ (hentryTypes ▸ hknown))
                hhistory hrep'

/-- From the start the slot machine gets to a state that corresponds to the start of the stack
machine. -/
theorem corresponds_start {locals frame : Frame} (hframe : ∀ i < r.maxLocals, frame i = locals i)
    (env : Environment) :
    ∃ m sl, run (SlotMachine.step site.context env body) m (SlotMachine.start frame) = .next sl ∧
      Corresponds site fin stream r.code.length (StackMachine.start locals) sl := by
  have hrep : Represents site {} [] [] locals (SlotMachine.start frame).core :=
    ⟨.nil, h.describes.maxLocals ▸ hframe, fun _ v hv => nomatch hv⟩
  exact h.fall (List.suffix_refl _) h.scanned.contiguous (holds_empty site) h.lowered rfl hrep env

/-- Machines that correspond are at the same position and agree. -/
theorem agree_of_corresponds (hcorresponds : Corresponds site fin stream r.code.length st sl) :
    sl.index = fin.place st.pc ∧ Agree r.maxLocals st sl := by
  obtain ⟨rest, s, hboundary, hindex, hhistory, hrep⟩ := hcorresponds
  exact ⟨hindex.trans hboundary.place.symm, h.describes.maxLocals ▸ hrep.frame, hhistory⟩

/-- The runs of both machines from the start. -/
theorem exists_schedule {locals frame : Frame} (hframe : ∀ i < r.maxLocals, frame i = locals i)
    (env : Environment) :
    ∃ schedule : Nat → Nat, (∀ n, schedule n ≤ schedule (n + 1)) ∧ (∀ m, ∃ n, m ≤ schedule n) ∧
      ∀ n, Step.Related (fun st sl => sl.index = fin.place st.pc ∧ Agree r.maxLocals st sl)
        (SameEnd r.maxLocals) (run (StackMachine.step r env) n (StackMachine.start locals))
        (run (SlotMachine.step site.context env body) (schedule n) (SlotMachine.start frame)) := by
  obtain ⟨m, sl, hrun, hcorresponds⟩ := h.corresponds_start hframe env
  obtain ⟨schedule, hmono, hunbounded, hrelated⟩ :=
    Semantics.exists_schedule (fun st sl => h.matched env) hcorresponds
  refine ⟨fun n =>
    m + schedule n, fun n => Nat.add_le_add_left (hmono n) m, fun k => ?_, fun n => ?_⟩
  · obtain ⟨n, hn⟩ := hunbounded k
    exact ⟨n, Nat.le_add_left_of_le hn⟩
  · rw [run_add hrun]
    exact (hrelated n).imp (fun st sl => h.agree_of_corresponds) fun _ _ _ _ => id

/-- The slot machine never gets stuck. -/
theorem run_ne_stuck (env : Environment) (frame : Frame) (m : Nat) :
    run (SlotMachine.step site.context env body) m (SlotMachine.start frame) ≠ .stuck := by
  obtain ⟨schedule, -, hunbounded, hrelated⟩ := h.exists_schedule (fun _ _ => rfl) env
  exact run_ne_stuck_of_schedule hunbounded hrelated m

/-- How the slot machine halts does not depend on the slots after the local variables. -/
theorem exists_halt {frame frame' : Frame} (hframe : ∀ i < r.maxLocals, frame' i = frame i)
    (env : Environment) {m : Nat} {outcome : Outcome}
    (hhalt : run (SlotMachine.step site.context env body) m (SlotMachine.start frame) =
      .halt outcome sl) :
    ∃ m' sl', run (SlotMachine.step site.context env body) m' (SlotMachine.start frame') =
        .halt outcome sl' ∧ sl'.core.history = sl.core.history := by
  obtain ⟨schedule, -, hunbounded, hrelated⟩ := h.exists_schedule (fun _ _ => rfl) env
  obtain ⟨schedule', -, -, hrelated'⟩ := h.exists_schedule hframe env
  obtain ⟨n, _, st, hst, rfl, hagree⟩ := exists_halt_of_schedule hunbounded hrelated hhalt
  have hrel := hrelated' n
  rw [hst] at hrel
  obtain ⟨_, sl', hsl', rfl, hagree'⟩ := hrel.exists_halt
  exact ⟨schedule' n, sl', hsl', hagree'.2.trans hagree.2.symm⟩

end Lowers

/-- Lowering preserves meaning. Whatever a context, class and method, if the method can be lowered,
then its body does what its bytecode does: for every environment, all local variables and every
content of the other slots, there is a schedule by which the runs of the two machines go on
together. After each step of the stack machine the slot machine is at the code of the position, with
the same local variables, after the same calls and array operations. The runs return the same value,
trap at the same operation on the same operands, or come to the end together; neither is ever stuck.
In particular how the body halts does not depend on what the slots after the local variables hold at
first. -/
theorem lower_preserves_meaning {context : Context} {owner : ClassTable} {method : Method}
    {body : Body} (hctx : Positioned context) (h : lower context owner method = .ok body) :
    (∃ place : Nat → Nat, ∀ (env : Environment) (locals frame : Frame),
      (∀ i < method.maxLocals.toNat, frame i = locals i) →
        ∃ schedule : Nat → Nat, (∀ n, schedule n ≤ schedule (n + 1)) ∧ (∀ m, ∃ n, m ≤ schedule n) ∧
          ∀ n, Step.Related
            (fun st sl => sl.index = place st.pc ∧ Agree method.maxLocals.toNat st sl)
            (SameEnd method.maxLocals.toNat)
            (run (StackMachine.step (.of context owner method) env) n (StackMachine.start locals))
            (run (SlotMachine.step context env body) (schedule n) (SlotMachine.start frame))) ∧
    ∀ (env : Environment)
      (frame frame' : Frame), (∀ i < method.maxLocals.toNat, frame' i = frame i) → ∀ m outcome sl,
        run (SlotMachine.step context env body) m (SlotMachine.start frame) = .halt outcome sl →
        ∃ m' sl', run (SlotMachine.step context env body) m' (SlotMachine.start frame') =
            .halt outcome sl' ∧ sl'.core.history = sl.core.history := by
  obtain ⟨stream, fin, hlowers⟩ := lowers_of_lower hctx h
  exact ⟨⟨fin.place, fun env locals frame hframe => hlowers.exists_schedule hframe env⟩,
    fun env frame frame' hframe m outcome sl hhalt => hlowers.exists_halt hframe env hhalt⟩

/-- Counts an int down to zero and returns it. -/
def countdown : Method :=
  { name := "countdown", descriptor := "(I)I", signature := ⟨[.int], some .int⟩, access := ⟨8⟩,
    id := ⟨0, 0, 0⟩, maxLocals := 1, maxStack := 1,
    bytecode := [0x1a, 0x99, 0x00, 0x09, 0x84, 0x00, 0xff, 0xa7, 0xff, 0xf9, 0x1a, 0xac] }

/-- The class of `countdown`. -/
def countdownOwner : ClassTable := { name := "Main", constants := {}, methods := #[countdown] }

/-- A context that has `countdown` published. -/
def countdownContext : Context :=
  { published := #[{ index := 0, name := "demo", classes := #[countdownOwner] }] }

/-- What `countdown` is lowered to. -/
def countdownBody : Body :=
  { code :=
      [{ kind := .compare .int, args := [.slot 0, .int 0], marks := ⟨true, true⟩ },
        { kind := .jumpIf .eq, args := [.branch 4, .flags] },
        { kind := .arith .int .add, dst := some (.slot 0), args := [.slot 0, .int (-1)],
          marks := ⟨true, false⟩ },
        { kind := .jump, args := [.branch 0] },
        { kind := .ret (some .int), args := [.slot 0], marks := ⟨true, true⟩ }]
    frameSlots := 2 }

/-- A world that answers nothing. -/
def silent : Environment :=
  { singleArith := fun _ a _ => a, doubleArith := fun _ a _ => a, convert := fun _ a => a,
    answer := fun _ => none }

/-- The one method of the context has the first id. -/
theorem indexed_countdownContext : countdownContext.Indexed :=
  Context.indexed_singleton rfl rfl rfl rfl

/-- Where `countdown` takes its instructions from. -/
theorem ofByte?_countdown :
    Opcode.ofByte? 0x1a = some ⟨0x1a, "iload_0", 1, fun _ => .load .int 0⟩ ∧
      Opcode.ofByte? 0x99 =
        some ⟨0x99, "ifeq", 3, fun o => .branch .zero .eq (i16 o).toInt⟩ ∧
      Opcode.ofByte? 0x84 =
        some ⟨0x84, "iinc", 3, fun o => .increment (u8 o).toNat (i8 (o.drop 1))⟩ ∧
      Opcode.ofByte? 0xa7 = some ⟨0xa7, "goto", 3, fun o => .jump (i16 o).toInt⟩ ∧
      Opcode.ofByte? 0xac = some ⟨0xac, "ireturn", 1, fun _ => .ret (some .int)⟩ :=
  ⟨rfl, rfl, rfl, rfl, rfl⟩

theorem lower_countdown :
    lower countdownContext countdownOwner countdown = .ok countdownBody := by
  obtain ⟨hload, hbranch, hincrement, hjump, hret⟩ := ofByte?_countdown
  have hforward : (i16 [0, 9]).toInt = 9 := by decide
  have hback : (i16 [255, 249]).toInt = -7 := by decide
  have hlocal : (u8 [0, 255]).toNat = 0 := by decide
  have hdelta : i8 [255] = -1 := by decide
  simp [countdown, lower, Stream.scan, split, branchTargets, Located.target?, Located.instr,
    Instr.displacement?, hload, hbranch, hincrement, hjump, hret, hforward, hback, hlocal, hdelta]
  -- The maps stay as they were written, and looking up goes through what was inserted.
  simp [lowerAt, lowerInstr, lowerComparison, lowerIncrement, emitBranch, emitCompare, emit,
    enterTarget,
    flush, replaceEntries, recordEntry, stackTypes, saveLocal, checkLocal, push, pop, popTyped,
    checkType,
    typeOf, consume, operandOf, releaseEntry, OperandStack.push, OperandStack.pop?,
    OperandStack.releaseEntry, OperandStack.resetTo, Entry.words, Entry.valueType?, ValueType.words,
    ValueType.isWide, Located.instr, Located.next, Site.tmpIndex, resolve, markBlocks, jumpTargets,
    markFrom, Kind.isJump, countdownBody, hforward, hback, hlocal, hdelta, List.mapM_cons,
    Std.HashMap.getElem_insert, Std.HashMap.getD_insert, ok_bind]

/-- Machines that enter `countdown` at zero, with something in the other slots of the frame. -/
theorem lower_preserves_meaning_countdown :
    Positioned countdownContext ∧
      lower countdownContext countdownOwner countdown = .ok countdownBody ∧
      (∃ place schedule : Nat → Nat, ∀ n, Step.Related
        (fun st sl => sl.index = place st.pc ∧ Agree 1 st sl) (SameEnd 1)
        (run (StackMachine.step (.of countdownContext countdownOwner countdown) silent) n
          (StackMachine.start fun _ => {}))
        (run (SlotMachine.step countdownContext silent countdownBody) (schedule n)
          (SlotMachine.start fun i => if i = 0 then {} else { scalar := 7 }))) ∧
      ∃ m sl, run (SlotMachine.step countdownContext silent countdownBody) m
        (SlotMachine.start fun i => if i = 0 then {} else { scalar := 7 }) =
          .halt (.returned (some (.int 0))) sl := by
  have hctx := positioned_of_indexed indexed_countdownContext
  obtain ⟨⟨place, hruns⟩, halts⟩ := lower_preserves_meaning hctx lower_countdown
  have hframe : ∀ i < countdown.maxLocals.toNat,
      (if i = 0 then {} else { scalar := 7 } : Machine.Slot) = {} := fun i hi =>
    if_pos (Nat.lt_one_iff.mp hi)
  obtain ⟨schedule, -, -, hrelated⟩ := hruns silent (fun _ => {}) _ hframe
  obtain ⟨m, sl, hhalt, -⟩ :=
    halts silent (fun _ => {}) _ hframe 3 (.returned (some (.int 0))) _ rfl
  exact ⟨hctx, lower_countdown, ⟨place, schedule, hrelated⟩, m, sl, hhalt⟩

end SlotJit.Lowering

import SlotJit.Proofs.Lowering.Faults
import SlotJit.Proofs.Lowering.Shuffles
import SlotJit.Proofs.Tables.Ids

/-!
# Lowering one instruction

The instructions that emit code: writes to local variables, operations, compares and branches. All
operations, from additions to calls, pop their operands, push a temporary for the result and emit
one instruction (`lowerOperation`), so one lemma is about them all.

The main result is `simulates_lowerInstr`.
-/

namespace SlotJit.Lowering

open SlotJit.Bytecode SlotJit.Ir SlotJit.Semantics SlotJit.Tables

variable {site : Site} {r : Routine} {pc next : Nat} {target? : Option Int} {s t u v : State}
  {a : Unit} {op : Operation} {env : Environment} {comparison : Comparison} {kind : Kind}
  {ty : ValueType}

/-! ### Local variables -/

/-- What lowering keeps true survives that entries on the stack are rewritten. -/
theorem Holds.rewrites {above : List Entry} (hs : Holds site s (above ++ s.stack.entries))
    (h : Rewrites site s t (above ++ s.stack.entries) (above ++ t.stack.entries)) :
    Holds site t (above ++ t.stack.entries) := by
  refine ⟨h.tidy, ?_, h.words ▸ hs.depth, h.entryTypes ▸ hs.recorded⟩
  have htypes := h.types
  rw [List.map_append, List.map_append, List.append_cancel_left_eq] at htypes
  have hwords : Entry.words =
      (fun ty? : Option ValueType => (ty?.map ValueType.words).getD 1) ∘ Entry.valueType? := by
    funext e
    rw [Entry.words, Function.comp_apply]
    cases e.valueType? <;> rfl
  rw [h.words, hs.words, hwords, ← List.map_map, ← List.map_map, htypes]

/-- Storing what a local variable holds to that variable. -/
theorem simulates_storeSame {index : Nat} (hr : site.Describes r)
    (hs : Holds site s s.stack.entries) (hindex : index + ty.words ≤ site.maxLocals.toNat)
    (hpop : Yields (pop pc) s (.localVar index ty) t) :
    Simulates site s t .next pc next target? fun env st =>
      StackMachine.execute r env st next (.store ty index) := by
  obtain ⟨hentries, hquiet⟩ := quiet_pop site s.stack.entries hpop
  have hdropped : Quiet site s t s.stack.entries t.stack.entries := by
    rw [hentries] at hquiet ⊢
    exact hquiet.drop rfl
  refine simulates_of_quiet hs hdropped fun env values locals core hrep => ?_
  have hlt : index < site.maxLocals.toNat :=
    Nat.lt_of_lt_of_le (Nat.lt_add_of_pos_right (words_pos ty)) hindex
  rw [hentries, represents_cons rfl] at hrep
  obtain ⟨v, rest, rfl, hv, hrep⟩ := hrep
  have hget : v = locals.get ty index := by
    rw [show v = core.frame.get ty index from hv, Frame.get, Frame.get, hrep.frame index hlt]
  refine ⟨rest, ?_, hrep⟩
  simp [StackMachine.execute.eq_def, hr.maxLocals, hindex, hget]

/-- A store. -/
theorem simulates_store {index : Nat} (hr : site.Describes r) (hs : Holds site s s.stack.entries)
    (h : Yields (lowerStore site pc ty index) s a t) :
    Simulates site s t .next pc next target? fun env st =>
      StackMachine.execute r env st next (.store ty index) := by
  simp only [lowerStore, yields_bind, yields_checkLocal, yields_checkType] at h
  obtain ⟨_, _, ⟨hindex, rfl⟩, e, u, hpop, _, _, ⟨hty, rfl⟩, h⟩ := h
  rw [yields_ite] at h
  rcases h with ⟨-, h⟩ | ⟨hsame, h⟩
  · simp only [yields_bind, yields_consume, yields_emitMove] at h
    obtain ⟨_, v, hsave, src, _, ⟨hsrc, stack, hrelease, rfl⟩, rfl⟩ := h
    have hlt : index < site.maxLocals.toNat :=
      Nat.lt_of_lt_of_le (Nat.lt_add_of_pos_right (words_pos ty)) hindex
    obtain ⟨hentries, hquiet⟩ := quiet_pop site s.stack.entries hpop
    have hu : Holds site u (e :: u.stack.entries) := hentries ▸ hquiet.holds hs
    obtain ⟨hrewrites, hfree⟩ :=
      rewrites_saveLocal hlt (show Tidy site u.stack ([e] ++ u.stack.entries) from hu.tidy) hsave
    have hv : Holds site v (e :: v.stack.entries) :=
      Holds.rewrites (show Holds site u ([e] ++ u.stack.entries) from hu) hrewrites
    obtain ⟨hrest, hreleased⟩ :=
      quiet_release site v.stack.entries (a := ()) (yields_releaseEntry.mpr ⟨stack, hrelease, rfl⟩)
    obtain ⟨moves, hmoves, hruns⟩ := hrewrites.runs
    refine ⟨hrewrites.positions.trans hquiet.positions, ?_, ?_,
      moves ++ [moveTo ty index src], ?_, ?_⟩
    · intro target types htypes
      rwa [hrewrites.entryTypes, hquiet.entryTypes]
    · rw [hrest]
      exact (hreleased.holds hv).congr rfl rfl
    · rw [Array.toList_push, hmoves, hquiet.code, List.append_assoc]
      rfl
    · intro env values locals core hrep
      rw [hentries] at hrep
      obtain ⟨core₁, hexec₁, -, hhistory, hrep₁⟩ :=
        hruns env values locals core (hrep.congr hquiet.code)
      obtain ⟨x, rest, rfl, hx, hrep₁⟩ := (represents_cons hty).mp hrep₁
      have hstep : StackMachine.execute r env ⟨pc, locals, x :: rest, core.history⟩ next
          (.store ty index) = .next ⟨next, locals.set index x, rest, core.history⟩ := by
        simp [StackMachine.execute.eq_def, hr.maxLocals, hindex, hx.type hty]
      rw [hstep, executeAll_append hexec₁, executeAll_singleton,
        show Emitted.execute _ _ _ (moveTo ty index src) = _ from
          execute_move (hx.readOperand hty hsrc)]
      refine ⟨rfl, rfl, hhistory.symm, ?_⟩
      rw [hrest]
      exact ((hrep₁.set hfree x).congr rfl).emit_move rfl
  · obtain ⟨-, rfl⟩ := yields_pure.mp h
    rw [not_not.mp hsame] at hpop
    exact simulates_storeSame hr hs hindex hpop

/-! ### Operations -/

/-- An instruction that stands for an operation performs it. -/
theorem execute_operation {τ : Type} {context : Context} {core : Core} {inst : Inst}
    {args : List Operand} (h : operation? context inst.kind inst.args = some (op, args)) :
    (core.execute context env inst : Exit τ) = core.operate env op args inst.dst := by
  obtain ⟨kind, dst, operands, marks⟩ := inst
  cases kind with
  | move | compare | ret | jump | jumpIf => cases h
  | arith | neg | floatArith | floatNeg | convert | callStatic | callNative | newIntArray
  | arrayLen | intArrayGet | intArraySet => simp only [Core.execute, h]

/-- An operation loses the flags. -/
theorem flagsIntact_of_operation (context : Context) {inst : Inst} {args : List Operand}
    (h : operation? context inst.kind inst.args = some (op, args))
    (hcode : t.code = s.code.push (.inst inst)) : t.flagsIntact = false := by
  rw [flagsIntact_of_push hcode]
  obtain ⟨kind, dst, operands, marks⟩ := inst
  cases kind with
  | move | compare | ret | jump | jumpIf => cases h
  | arith | neg | floatArith | floatNeg | convert | callStatic | callNative | newIntArray
  | arrayLen | intArrayGet | intArraySet => rfl

/-- The instruction that adds a constant to an int in a slot. -/
def addTo (index : Nat) (delta : Int8) : Inst :=
  { kind := .arith .int .add, dst := some (.slot index), args := [.slot index, .int delta.toInt64] }

/-- Adding a constant to an int in a slot. -/
theorem execute_addTo {context : Context} {core : Core} {index : Nat} {delta : Int8} {v : BitVec 32}
    (hv : core.frame.get .int index = .int v) :
    Emitted.execute context env core (.inst (addTo index delta)) = .fall
      { core with
        frame := core.frame.set index (.int (v + delta.toInt32.toBitVec)), flags := none } := by
  have hdelta : delta.toInt64.toInt32 = delta.toInt32 := by simp
  simp [addTo, Emitted.execute, Core.execute, operation?, Core.operate, Operation.params,
    IntOp.isShift, Integral.valueType, readOperands, readOperand, hv, hdelta, Operation.perform,
    Operation.arithReply, applyIntOp, Core.deliver]

/-- An increment of a local variable. -/
theorem simulates_increment {index : Nat} {delta : Int8} (hr : site.Describes r)
    (hs : Holds site s s.stack.entries) (h : Yields (lowerIncrement site pc index delta) s a t) :
    Simulates site s t .next pc next target? fun env st =>
      StackMachine.execute r env st next (.increment index delta) := by
  simp only [lowerIncrement, yields_bind, yields_checkLocal, yields_emit] at h
  obtain ⟨_, _, ⟨hindex, rfl⟩, _, u, hsave, rfl⟩ := h
  have hlt : index < site.maxLocals.toNat :=
    Nat.lt_of_lt_of_le (Nat.lt_add_of_pos_right (words_pos .int)) hindex
  obtain ⟨hrewrites, hfree⟩ :=
    rewrites_saveLocal hlt (show Tidy site s.stack ([] ++ s.stack.entries) from hs.tidy) hsave
  have hu := Holds.rewrites (show Holds site s ([] ++ s.stack.entries) from hs) hrewrites
  obtain ⟨moves, hmoves, hruns⟩ := hrewrites.runs
  refine ⟨hrewrites.positions, ?_, hu.congr rfl rfl, moves ++ [.inst (addTo index delta)], ?_, ?_⟩
  · intro target types htypes
    rwa [hrewrites.entryTypes]
  · rw [Array.toList_push, hmoves, List.append_assoc]
    rfl
  · intro env values locals core hrep
    obtain ⟨core₁, hexec₁, -, hhistory, hrep₁⟩ := hruns env values locals core hrep
    obtain ⟨v, hv⟩ : ∃ v, core₁.frame.get .int index = .int v :=
      Value.exists_of_type (Frame.type_get core₁.frame .int index)
    have hlocal : locals.get .int index = .int v := by
      rw [← hv, Frame.get, Frame.get, hrep₁.frame index hlt]
    have hstep : StackMachine.execute r env ⟨pc, locals, values, core.history⟩ next
        (.increment index delta) = .next ⟨next,
          locals.set index (.int (v + delta.toInt32.toBitVec)), values, core.history⟩ := by
      simp [StackMachine.execute.eq_def, hr.maxLocals, hlt, hlocal]
    rw [hstep, executeAll_append hexec₁, executeAll_singleton, execute_addTo hv]
    refine ⟨rfl, rfl, hhistory.symm, ?_⟩
    exact (hrep₁.set hfree _).clobber rfl (flagsIntact_of_operation site.context rfl rfl)

/-- Lower an operation: pop its operands, push a temporary for its result, and emit an instruction
with some operands in front. -/
def lowerOperation (site : Site) (pc : Nat) (kind : Kind) (front : List Operand) (op : Operation) :
    Lower Unit := do
  let args ← op.params.reverse.mapM (popTyped site pc)
  let dst ← op.result.mapM (pushTmp site pc)
  emit { kind, dst, args := front ++ args.reverse }

/-- The arguments of an operation on top of the stack. -/
theorem popArgs_append {params : List ValueType} {args rest : List Value}
    (h : args.map Value.type = params.reverse) :
    StackMachine.popArgs params (args ++ rest) = some (args.reverse, rest) := by
  have hlength : params.length = args.length := by
    rw [← List.length_reverse, ← h, List.length_map]
  simp [StackMachine.popArgs, hlength, h]

/-- A place for the result of an operation: the value that is delivered there is on top of the
stack, if there is one. -/
theorem delivered {result : Option ValueType} {dst : Option Operand}
    (hs : Holds site s s.stack.entries) (h : Yields (result.mapM (pushTmp site pc)) s dst u) :
    Quiet site s u s.stack.entries u.stack.entries ∧
      ∀ values locals core (flags : Option Ordering) history (value : Option Value),
        Represents site s s.stack.entries values locals core → value.map Value.type = result →
          ∀ t : State, t.flagsIntact = false →
            ∃ core', Core.deliver { core with flags, history } value dst = some core' ∧
              core'.history = history ∧
                Represents site t u.stack.entries (value.toList ++ values) locals core' := by
  cases result with
  | none =>
      obtain ⟨rfl, rfl⟩ := yields_pure.mp h
      refine ⟨.refl, fun values locals core flags history value hrep hvalue t hintact => ?_⟩
      obtain rfl := Option.map_eq_none_iff.mp hvalue
      exact ⟨_, rfl, rfl, hrep.clobber rfl hintact⟩
  | some ty =>
      obtain ⟨a, hpush, rfl⟩ := yields_map.mp h
      obtain ⟨index, rfl, hentries, hquiet, hfree⟩ := quiet_pushTmp s.stack.entries hpush
      refine ⟨hentries ▸ hquiet, ?_⟩
      intro values locals core flags history value hrep hvalue t hintact
      obtain ⟨v, rfl, rfl⟩ := Option.map_eq_some_iff.mp hvalue
      refine ⟨_, rfl, rfl, ?_⟩
      rw [hentries]
      have hkeep : ∀ i < site.maxLocals.toNat, locals i = locals.set (site.tmpIndex index) v i :=
        fun i hi => (Frame.set_of_ne locals v (by simp only [Site.tmpIndex]; omega)).symm
      have hset := (hrep.set (hfree hs) v).locals_congr hkeep
      exact Represents.push (hset.clobber rfl hintact) rfl (Entry.denotes_set rfl rfl)

/-- Lowering an operation. -/
theorem simulates_operation {front : List Operand}
    (hkind : ∀ args, operation? site.context kind (front ++ args) = some (op, args))
    (hs : Holds site s s.stack.entries) (h : Yields (lowerOperation site pc kind front op) s a t) :
    Simulates site s t .next pc next target? fun env st => StackMachine.operate env op st next := by
  simp only [lowerOperation, yields_bind, yields_emit] at h
  obtain ⟨args, u, hpop, dst, v, hresult, rfl⟩ := h
  obtain ⟨es, hentries, htypes, hpopped, hread⟩ := popped_operands hpop
  have hu := hpopped.holds hs
  obtain ⟨hpushed, hdeliver⟩ := delivered hu hresult
  refine ⟨hpushed.positions.trans hpopped.positions, ?_, (hpushed.holds hu).congr rfl rfl,
    [.inst { kind, dst, args := front ++ args.reverse }], ?_, ?_⟩
  · intro target types htypes
    rwa [hpushed.entryTypes, hpopped.entryTypes]
  · rw [Array.toList_push, hpushed.code, hpopped.code]
  · intro env values locals core hrep
    rw [hentries, represents_append htypes] at hrep
    obtain ⟨first, rest, rfl, hfirst, hrep⟩ := hrep
    have hparams := types_of_denotes hfirst htypes
    have hargs : readOperands core.frame args.reverse op.params = some first.reverse := by
      simpa using readOperands_reverse (hread core.frame first hfirst)
    have hmap : first.reverse.map Value.type = op.params := by
      rw [List.map_reverse, hparams, List.reverse_reverse]
    have hanswered := op.answered_perform env core.history hmap
    rw [executeAll_singleton, Emitted.execute, execute_operation (hkind args.reverse)]
    cases hperform : op.perform env core.history first.reverse with
    | stuck =>
        rw [hperform] at hanswered
        cases hanswered
    | trap history =>
        simp only [StackMachine.operate, popArgs_append hparams, Core.operate, hargs, hperform]
        exact ⟨rfl, rfl, hrep.frame⟩
    | done result history =>
        rw [hperform] at hanswered
        obtain ⟨_, htype⟩ := hanswered
        have hintact : State.flagsIntact
            { v with code := v.code.push (.inst { kind, dst, args := front ++ args.reverse }) } =
            false :=
          flagsIntact_of_operation site.context (hkind args.reverse) rfl
        obtain ⟨core', hcore', hhistory, hrep'⟩ := hdeliver rest locals core none history result
          (hrep.congr hpopped.code) htype _ hintact
        simp only [StackMachine.operate, popArgs_append hparams, Core.operate, hargs,
          hperform, hcore']
        exact ⟨rfl, rfl, hhistory.symm, hrep'⟩

/-- An instruction that performs an operation. -/
theorem execute_eq_operate {st : StackMachine.State} {instr : Instr}
    (h : StackMachine.operation? r instr = some op) :
    StackMachine.execute r env st next instr = StackMachine.operate env op st next := by
  cases instr with
  | nop | push | pushConstant | load | store | increment | pop | pop2 | dup | dupX1 | dup2 | swap
  | compareLong | branch | jump | ret | unsupported => cases h
  | binary | negate | floatBinary | floatNegate | convert | invokeStatic | newArray | arrayLength
  | arrayLoad | arrayStore => simp only [StackMachine.execute.eq_def, h]

/-- The kind of instruction that calls a method. -/
def callKind (callee : Method) : Kind := if callee.access.isNative then .callNative else .callStatic

/-- The operation that a call of a method is. -/
def callOf (callee : Method) : Operation :=
  .call callee.id callee.access.isNative callee.signature.paramTypes callee.signature.resultType

/-- The static method that a call names. -/
def callee? (site : Site) (index : UInt16) : Option Method :=
  match site.constants.get? index with
  | some (.methodRef member) =>
    (site.context.findMethod? member.className member.name member.descriptor).filter
      (·.access.isStatic)
  | _ => none

/-- A callee was found by its name, and it is static. -/
theorem exists_member {index : UInt16} {callee : Method} (h : callee? site index = some callee) :
    ∃ member, site.constants.get? index = some (.methodRef member) ∧
      site.context.findMethod? member.className member.name member.descriptor = some callee ∧
      callee.access.isStatic = true := by
  unfold callee? at h
  split at h
  · rename_i member hmember
    obtain ⟨hfound, hstatic⟩ := Option.filter_eq_some_iff.mp h
    exact ⟨member, hmember, hfound, hstatic⟩
  · cases h

/-- The operation that an instruction performs, with the kind of the instruction that is emitted for
it and the operands that this has in front. -/
def performs? (site : Site) : Instr → Option (Kind × List Operand × Operation)
  | .binary ty op => some (.arith ty op, [], .arith ty op)
  | .negate ty => some (.neg ty, [], .neg ty)
  | .floatBinary ty op => some (.floatArith ty op, [], .floatArith ty op)
  | .floatNegate ty => some (.floatNeg ty, [], .floatNeg ty)
  | .convert conversion => some (.convert conversion, [], .convert conversion)
  | .invokeStatic index =>
    (callee? site index).map fun callee => (callKind callee, [.symbol callee.id], callOf callee)
  | .newArray code => if code = intElementCode then some (.newIntArray, [], .newIntArray) else none
  | .arrayLength => some (.arrayLen, [], .arrayLen)
  | .arrayLoad => some (.intArrayGet, [], .intArrayGet)
  | .arrayStore => some (.intArraySet, [], .intArraySet)
  | _ => none

/-- The instruction performs an operation, if it makes sense at all. -/
def isOperation : Instr → Bool
  | .binary .. | .negate _ | .floatBinary .. | .floatNegate _ | .convert _ | .invokeStatic _
  | .newArray _ | .arrayLength | .arrayLoad | .arrayStore => true
  | _ => false

/-- A call lowers the operation of the method that it names, or it is refused. -/
theorem lowerInvoke_eq (site : Site) (pc : Nat) (index : UInt16) :
    (∃ callee, callee? site index = some callee ∧ lowerInvoke site pc index =
      lowerOperation site pc (callKind callee) [.symbol callee.id] (callOf callee)) ∨
      ∃ error, error.position? = some pc ∧ lowerInvoke site pc index = throw error := by
  unfold lowerInvoke
  split
  · rename_i member hmember
    simp only [callee?, hmember]
    split
    · rename_i callee hcallee
      rw [hcallee]
      cases hstatic : callee.access.isStatic with
      | false => exact .inr ⟨_, rfl, rfl⟩
      | true => exact .inl ⟨callee, by simp [hstatic], rfl⟩
    · exact .inr ⟨_, rfl, rfl⟩
  · exact .inr ⟨_, rfl, rfl⟩

/-- All operations are lowered in one way, and what makes no sense is refused. -/
theorem lowerInstr_of_isOperation (site : Site) {l : Located} (h : isOperation l.instr = true) :
    (∃ kind front op, performs? site l.instr = some (kind, front, op) ∧
      lowerInstr site l = do lowerOperation site l.pc kind front op; return .next) ∨
      ∃ error, error.position? = some l.pc ∧ lowerInstr site l = throw error := by
  have hperforms {x : Lower Unit} {kind : Kind} {front : List Operand} {op : Operation}
      (hperforms : performs? site l.instr = some (kind, front, op))
      (hx : x = lowerOperation site l.pc kind front op)
      (hlower : lowerInstr site l = do x; return .next) :
      ∃ kind front op, performs? site l.instr = some (kind, front, op) ∧
        lowerInstr site l = do lowerOperation site l.pc kind front op; return .next :=
    ⟨kind, front, op, hperforms, hx ▸ hlower⟩
  cases hinstr : l.instr with
  | nop | push | pushConstant | load | store | increment | pop | pop2 | dup | dupX1 | dup2 | swap
  | compareLong | branch | jump | ret | unsupported =>
      rw [hinstr] at h
      cases h
  | binary | floatBinary | arrayLoad =>
      refine .inl (hinstr ▸ hperforms (by rw [hinstr]; rfl) ?_ (by rw [lowerInstr, hinstr]))
      simp [lowerBinary, lowerOperation, Operation.params, Operation.result]
  | negate | floatNegate | convert | arrayLength =>
      refine .inl (hinstr ▸ hperforms (by rw [hinstr]; rfl) ?_ (by rw [lowerInstr, hinstr]))
      simp [lowerUnary, lowerOperation, Operation.params, Operation.result]
  | arrayStore =>
      refine .inl ⟨_, _, _, rfl, ?_⟩
      simp [lowerInstr, hinstr, lowerOperation, Operation.params, Operation.result]
  | invokeStatic index =>
      have hlower : lowerInstr site l = do lowerInvoke site l.pc index; return .next := by
        rw [lowerInstr, hinstr]
      rcases lowerInvoke_eq site l.pc index with ⟨callee, hcallee, heq⟩ | ⟨error, herror, heq⟩
      · refine .inl ⟨callKind callee, [.symbol callee.id], callOf callee, ?_, ?_⟩
        · simp only [performs?.eq_def, hcallee, Option.map_some]
        · rw [hlower, heq]
      · exact .inr ⟨error, herror, by rw [hlower, heq]; rfl⟩
  | newArray code =>
      by_cases hcode : code = intElementCode
      · refine .inl ⟨_, _, _, if_pos hcode, ?_⟩
        simp [lowerInstr, hinstr, hcode, lowerUnary, lowerOperation, Operation.params,
          Operation.result]
      · refine .inr ⟨.unsupportedArrayType l.pc code, rfl, ?_⟩
        rw [lowerInstr, hinstr]
        exact if_pos hcode

/-- A call names its callee in front of the arguments; other operations have nothing there, and few
operands. -/
theorem front_of_performs {instr : Instr} {front : List Operand}
    (h : performs? site instr = some (kind, front, op)) : front = [] ∧ op.params.length ≤ 3 ∨
      ∃ index id, instr = .invokeStatic index ∧ front = [.symbol id] := by
  cases instr with
  | invokeStatic index =>
      obtain ⟨callee, -, heq⟩ := Option.map_eq_some_iff.mp h
      cases heq
      exact .inr ⟨index, callee.id, rfl, rfl⟩
  | newArray code =>
      simp only [performs?.eq_def] at h
      split at h <;> cases h
      exact .inl ⟨rfl, by simp [Operation.params]⟩
  | binary | negate | floatBinary | floatNegate | convert | arrayLength | arrayLoad | arrayStore =>
      cases h
      exact .inl ⟨rfl, by simp [Operation.params]⟩
  | _ => cases h

/-- The instruction that is emitted for an operation neither jumps nor moves nor compares. -/
theorem kind_of_performs {instr : Instr} {front : List Operand}
    (h : performs? site instr = some (kind, front, op)) :
    kind.isJump = false ∧ kind.isMove = false ∧ ∀ ty, kind ≠ .compare ty := by
  cases instr with
  | invokeStatic index =>
      obtain ⟨callee, -, heq⟩ := Option.map_eq_some_iff.mp h
      cases heq
      unfold callKind
      split <;> exact ⟨rfl, rfl, by simp⟩
  | newArray code =>
      simp only [performs?.eq_def] at h
      split at h <;> cases h
      exact ⟨rfl, rfl, by simp⟩
  | binary | negate | floatBinary | floatNegate | convert | arrayLength | arrayLoad | arrayStore =>
      cases h
      exact ⟨rfl, rfl, by simp⟩
  | _ => cases h

/-- The instruction that is emitted for an operation stands for that operation. -/
theorem operation?_of_performs {instr : Instr} {front : List Operand}
    (hctx : Positioned site.context) (h : performs? site instr = some (kind, front, op))
    (args : List Operand) : operation? site.context kind (front ++ args) = some (op, args) := by
  cases instr with
  | invokeStatic index =>
      obtain ⟨callee, hcallee, heq⟩ := Option.map_eq_some_iff.mp h
      cases heq
      obtain ⟨member, -, hfound, -⟩ := exists_member hcallee
      have hmethod := hctx _ _ _ callee hfound
      unfold callKind callOf
      cases callee.access.isNative <;> simp [operation?, operation?.call, hmethod]
  | newArray code =>
      simp only [performs?.eq_def] at h
      split at h
      · cases h
        rfl
      · cases h
  | binary | negate | floatBinary | floatNegate | convert | arrayLength | arrayLoad | arrayStore =>
      cases h
      rfl
  | _ => cases h

/-- The stack machine performs the same operation. -/
theorem stackMachine_operation? {instr : Instr} {front : List Operand} (hr : site.Describes r)
    (h : performs? site instr = some (kind, front, op)) :
    StackMachine.operation? r instr = some op := by
  cases instr with
  | invokeStatic index =>
      obtain ⟨callee, hcallee, heq⟩ := Option.map_eq_some_iff.mp h
      cases heq
      obtain ⟨member, hmember, hfound, hstatic⟩ := exists_member hcallee
      simp [StackMachine.operation?.eq_def, StackMachine.call?, hr.constants, hr.context, hmember,
        hfound, hstatic, callOf]
  | newArray code =>
      simp only [performs?.eq_def] at h
      split at h
      · cases h
        exact if_pos ‹_›
      · cases h
  | binary | negate | floatBinary | floatNegate | convert | arrayLength | arrayLoad | arrayStore =>
      cases h
      rfl
  | _ => cases h

/-! ### Compares -/

/-- A compare leaves the order of its operands in the flags. -/
theorem execute_compare {context : Context} {core : Core} {ty : Comparand} {a b : Operand}
    {x y : Value} {order : Ordering} (hx : readOperand core.frame a ty.valueType = some x)
    (hy : readOperand core.frame b ty.valueType = some y)
    (horder : compareValues x y = some order) :
    Emitted.execute context env core (.inst { kind := .compare ty, args := [a, b] }) =
      .fall { core with flags := some order } := by
  simp only [Emitted.execute, Core.execute, hx, hy, horder]

/-- A compare of two longs, which leaves flags on the stack. -/
theorem simulates_compareLong {a b : Operand} {w : State} {c d : Unit}
    (hs : Holds site s s.stack.entries) (hpop₁ : Yields (popTyped site pc .long) s b u)
    (hpop₂ : Yields (popTyped site pc .long) u a v)
    (hemit : Yields (emitCompare .long a b) v c w) (hpush : Yields (push site pc .flags) w d t) :
    Simulates site s t .next pc next target? fun env st =>
      StackMachine.execute r env st next .compareLong := by
  obtain ⟨e₁, hentries₁, hty₁, hb, hquiet₁⟩ := quiet_popTyped u.stack.entries hpop₁
  obtain ⟨e₂, hentries₂, hty₂, ha, hquiet₂⟩ := quiet_popTyped v.stack.entries hpop₂
  obtain rfl := yields_emit.mp hemit
  obtain ⟨hentries₃, hpushed⟩ := quiet_pushEntry v.stack.entries hpush rfl trivial
  rw [← hentries₁] at hquiet₁
  rw [← hentries₂] at hquiet₂
  have hpopped := hquiet₁.trans hquiet₂
  refine ⟨?_, ?_, ?_, [.inst { kind := .compare .long, args := [a, b] }], ?_, ?_⟩
  · rw [hpushed.positions]
    exact hpopped.positions
  · intro target types htypes
    rw [hpushed.entryTypes]
    exact hpopped.entryTypes ▸ htypes
  · rw [hentries₃]
    exact hpushed.holds ((hpopped.holds hs).congr rfl rfl)
  · rw [hpushed.code, Array.toList_push, hpopped.code]
  · intro env values locals core hrep
    rw [hentries₁, represents_cons hty₁] at hrep
    obtain ⟨y, _, rfl, hy, hrep⟩ := hrep
    rw [hentries₂, represents_cons hty₂] at hrep
    obtain ⟨x, rest, rfl, hx, hrep⟩ := hrep
    obtain ⟨y, rfl⟩ := Value.exists_of_type (hy.type hty₁)
    obtain ⟨x, rfl⟩ := Value.exists_of_type (hx.type hty₂)
    have hexec : Emitted.execute site.context env core
        (.inst { kind := .compare .long, args := [a, b] }) = _ :=
      execute_compare (hx.readOperand hty₂ ha) (hy.readOperand hty₁ hb) rfl
    rw [executeAll_singleton, hexec]
    refine ⟨rfl, rfl, rfl, ?_⟩
    rw [hentries₃]
    refine ⟨.cons ⟨compareSigned x y, rfl⟩ hrep.denotes, hrep.frame, fun _ v hv => ?_⟩
    cases hv
    exact ⟨_, rfl, rfl⟩

/-- The result of a compare, compared with zero, is the order that was found. -/
theorem compareSigned_orderValue {v : BitVec 32} {order : Ordering}
    (h : Value.int v = orderValue order) : compareSigned v 0 = order := by
  cases order <;> cases h <;> decide

/-- The compare of a branch was lowered: emitted code leaves the order of the operands in the flags,
on a stack that holds no other flags. -/
structure Compares (site : Site) (s t : State) (comparison : Comparison) : Prop where
  positions : t.positions = s.positions
  entryTypes : t.entryTypes = s.entryTypes
  holds : Holds site t t.stack.entries
  runs : ∃ chunk, t.code.toList = s.code.toList ++ chunk ∧
    ∀ env values locals core (types : List ValueType),
      Represents site s s.stack.entries values locals core →
        t.stack.entries.map Entry.valueType? = types.map some →
          ∃ order rest core', StackMachine.compared? comparison values = some (order, rest) ∧
            executeAll site.context env core chunk = .fall core' ∧ core'.flags = some order ∧
              core'.history = core.history ∧
                Represents site t t.stack.entries rest locals core'

/-- A compare of two values from the stack. -/
theorem compares_pair (ty : Comparand) {a b : Operand} {c : Unit}
    (hs : Holds site s s.stack.entries) (hpop₁ : Yields (popTyped site pc ty.valueType) s b u)
    (hpop₂ : Yields (popTyped site pc ty.valueType) u a v)
    (hemit : Yields (emitCompare ty a b) v c t)
    (hcompared : ∀ x y rest, x.type = ty.valueType → y.type = ty.valueType →
      ∃ order, compareValues x y = some order ∧
        StackMachine.compared? comparison (y :: x :: rest) = some (order, rest)) :
    Compares site s t comparison := by
  obtain ⟨e₁, hentries₁, hty₁, hb, hquiet₁⟩ := quiet_popTyped u.stack.entries hpop₁
  obtain ⟨e₂, hentries₂, hty₂, ha, hquiet₂⟩ := quiet_popTyped v.stack.entries hpop₂
  obtain rfl := yields_emit.mp hemit
  rw [← hentries₁] at hquiet₁
  rw [← hentries₂] at hquiet₂
  have hpopped := hquiet₁.trans hquiet₂
  refine ⟨hpopped.positions, hpopped.entryTypes, (hpopped.holds hs).congr rfl rfl,
    [.inst { kind := .compare ty, args := [a, b] }], ?_, ?_⟩
  · rw [Array.toList_push, hpopped.code]
  · intro env values locals core types hrep htypes
    rw [hentries₁, represents_cons hty₁] at hrep
    obtain ⟨y, _, rfl, hy, hrep⟩ := hrep
    rw [hentries₂, represents_cons hty₂] at hrep
    obtain ⟨x, rest, rfl, hx, hrep⟩ := hrep
    obtain ⟨order, horder, hstack⟩ := hcompared x y rest (hx.type hty₂) (hy.type hty₁)
    refine ⟨order, rest, { core with flags := some order }, hstack, ?_, rfl, rfl,
      hrep.of_typed htypes rfl⟩
    rw [executeAll_singleton]
    exact execute_compare (hx.readOperand hty₂ ha) (hy.readOperand hty₁ hb) horder

/-- A compare of a value from the stack with zero or null. -/
theorem compares_zero (ty : Comparand) {e : Entry} {a : Operand} {c : Unit}
    (hs : Holds site s s.stack.entries) (hpop : Yields (pop pc) s e u)
    (hty : e.valueType? = some ty.valueType) (hconsume : Yields (consume site pc e) u a v)
    (hemit : Yields (emitCompare ty a (.int 0)) v c t)
    (hcompared : ∀ frame x rest, x.type = ty.valueType → ∃ zero order,
      readOperand frame (.int 0) ty.valueType = some zero ∧ compareValues x zero = some order ∧
        StackMachine.compared? comparison (x :: rest) = some (order, rest)) :
    Compares site s t comparison := by
  obtain ⟨hentries, hpopped⟩ := quiet_pop site s.stack.entries hpop
  obtain ⟨ha, stack, hrelease, rfl⟩ := yields_consume.mp hconsume
  obtain ⟨hrest, hreleased⟩ :=
    quiet_release site u.stack.entries (a := ()) (yields_releaseEntry.mpr ⟨stack, hrelease, rfl⟩)
  obtain rfl := yields_emit.mp hemit
  rw [← hentries] at hreleased
  have hquiet := hpopped.trans hreleased
  refine ⟨hquiet.positions, hquiet.entryTypes, ?_,
    [.inst { kind := .compare ty, args := [a, .int 0] }], ?_, ?_⟩
  · rw [hrest]
    exact (hquiet.holds hs).congr rfl rfl
  · rw [Array.toList_push, hpopped.code]
  · intro env values locals core types hrep htypes
    rw [hentries, represents_cons hty] at hrep
    obtain ⟨x, rest, rfl, hx, hrep⟩ := hrep
    obtain ⟨zero, order, hzero, horder, hstack⟩ := hcompared core.frame x rest (hx.type hty)
    rw [hrest] at htypes ⊢
    refine ⟨order, rest, { core with flags := some order }, hstack, ?_, rfl, rfl,
      hrep.of_typed htypes rfl⟩
    rw [executeAll_singleton]
    exact execute_compare (hx.readOperand hty ha) hzero horder

/-- A branch on the result of a compare whose flags are still there. -/
theorem compares_flags (hs : Holds site s s.stack.entries) (hpop : Yields (pop pc) s .flags t)
    (hintact : t.flagsIntact = true) : Compares site s t .zero := by
  obtain ⟨hentries, hpopped⟩ := quiet_pop site s.stack.entries hpop
  have hquiet : Quiet site s t s.stack.entries t.stack.entries := by
    rw [hentries] at hpopped ⊢
    exact hpopped.drop rfl
  refine ⟨hquiet.positions, hquiet.entryTypes, hquiet.holds hs, [], ?_, ?_⟩
  · rw [hquiet.code, List.append_nil]
  · intro env values locals core types hrep htypes
    rw [hentries] at hrep
    obtain ⟨v, rest, -, hrest, rfl⟩ := List.forall₂_cons_left_iff.mp hrep.denotes
    rw [flagsIntact_congr hquiet.code] at hintact
    obtain ⟨order, hflags, rfl⟩ := hrep.pending hintact v rfl
    obtain ⟨x, hx⟩ := Value.exists_of_type (type_orderValue order)
    refine ⟨order, rest, core, ?_, rfl, hflags, rfl, hrest, hrep.frame, fun _ w hw => ?_⟩
    · rw [hx, StackMachine.compared?, compareSigned_orderValue hx.symm]
    · rw [htypes, topFlags_of_typed] at hw
      cases hw

/-- A comparison leaves its result in the flags. -/
theorem compares_lowerComparison (hs : Holds site s s.stack.entries)
    (h : Yields (lowerComparison site pc comparison) s a t) : Compares site s t comparison := by
  cases comparison with
  | zero =>
      simp only [lowerComparison, yields_bind] at h
      obtain ⟨e, u, hpop, h⟩ := h
      by_cases he : e = .flags
      · subst he
        rw [if_pos rfl, yields_get_bind] at h
        cases hintact : u.flagsIntact with
        | false => simp [hintact] at h
        | true =>
            simp only [hintact, Bool.not_true, Bool.false_eq_true, if_false, yields_pure] at h
            obtain ⟨-, rfl⟩ := h
            exact compares_flags hs hpop hintact
      · simp only [he, if_false, yields_bind, yields_checkType] at h
        obtain ⟨_, _, ⟨hty, rfl⟩, b, v, hconsume, hemit⟩ := h
        refine compares_zero .int hs hpop hty hconsume hemit fun frame x rest hx => ?_
        obtain ⟨x, rfl⟩ := Value.exists_of_type hx
        exact ⟨.int 0, compareSigned x 0, rfl, rfl, rfl⟩
  | ints =>
      simp only [lowerComparison, yields_bind] at h
      obtain ⟨b, u, hpop₁, c, v, hpop₂, hemit⟩ := h
      refine compares_pair .int hs hpop₁ hpop₂ hemit fun x y rest hx hy => ?_
      obtain ⟨x, rfl⟩ := Value.exists_of_type hx
      obtain ⟨y, rfl⟩ := Value.exists_of_type hy
      exact ⟨compareSigned x y, rfl, rfl⟩
  | refs =>
      simp only [lowerComparison, yields_bind] at h
      obtain ⟨b, u, hpop₁, c, v, hpop₂, hemit⟩ := h
      refine compares_pair .ref hs hpop₁ hpop₂ hemit fun x y rest hx hy => ?_
      obtain ⟨x, rfl⟩ := Value.exists_of_type hx
      obtain ⟨y, rfl⟩ := Value.exists_of_type hy
      exact ⟨compareSigned x y, rfl, rfl⟩
  | null =>
      simp only [lowerComparison, yields_bind, popTyped, yields_checkType] at h
      obtain ⟨b, v, ⟨e, u, hpop, _, _, ⟨hty, rfl⟩, hconsume⟩, hemit⟩ := h
      refine compares_zero .ref hs hpop hty hconsume hemit fun frame x rest hx => ?_
      obtain ⟨x, rfl⟩ := Value.exists_of_type hx
      exact ⟨.ref 0, compareSigned x 0, rfl, rfl, rfl⟩

/-! ### Branches -/

/-- The types of a stack in the merge slots. -/
theorem map_valueType?_merged (types : List ValueType) :
    (merged types).map Entry.valueType? = types.reverse.map some := by
  rw [merged, List.map_reverse, List.map_map, List.map_reverse]
  congr 1
  refine List.ext_getElem? fun i => ?_
  rw [List.getElem?_map, List.getElem?_zipIdx, List.getElem?_map]
  cases types[i]? <;> rfl

/-- No stack has more entries than words. -/
theorem length_le_words (es : List Entry) : es.length ≤ (es.map Entry.words).sum := by
  induction es with
  | nil => exact Nat.le_refl 0
  | cons e es ih =>
      have hpos := e.words_pos
      rw [List.length_cons, List.map_cons, List.sum_cons]
      omega

/-- A stack in the merge slots takes as many words as its types. -/
theorem words_merged (types : List ValueType) :
    ((merged types).map Entry.words).sum = (types.map ValueType.words).sum := by
  rw [merged, List.map_reverse, List.sum_reverse, List.map_map]
  congr 1
  refine List.ext_getElem? fun i => ?_
  rw [List.getElem?_map, List.getElem?_zipIdx, List.getElem?_map]
  cases types[i]? <;> rfl

/-- Recording the stack that a target is entered with, when it is in the merge slots. -/
theorem Holds.record {target : Nat} {types : List ValueType} (hs : Holds site s s.stack.entries)
    (hentries : s.stack.entries = merged types) (h : Yields (recordEntry pc target) s a t) :
    t.stack = s.stack ∧ t.code = s.code ∧ t.positions = s.positions ∧
      Holds site t t.stack.entries ∧ t.entryTypes[target]? = some types ∧
        ∀ (pc : Nat) (known : List ValueType), s.entryTypes[pc]? = some known →
          t.entryTypes[pc]? = some known := by
  obtain ⟨found, hfound, hrecorded⟩ := yields_recordEntry.mp h
  have htypes : found = types := by
    rw [hentries, List.map_reverse, map_valueType?_merged, ← List.map_reverse,
      List.reverse_reverse] at hfound
    exact (List.map_injective_iff.mpr (fun _ _ => Option.some.inj) hfound).symm
  subst htypes
  rcases hrecorded with ⟨hknown, rfl⟩ | ⟨hnew, rfl⟩
  · exact ⟨rfl, rfl, rfl, hs, hknown, fun _ _ => id⟩
  · have hdepth : (found.map ValueType.words).sum ≤ site.maxStack.toNat := by
      rw [← words_merged, ← hentries, ← hs.words]
      exact hs.depth
    refine ⟨rfl, rfl, rfl, ⟨hs.tidy, hs.words, hs.depth, ?_⟩, by simp, ?_⟩
    · intro pc known hknown
      rw [Std.HashMap.getElem?_insert] at hknown
      split at hknown
      · cases hknown
        exact hdepth
      · exact hs.recorded pc known hknown
    · intro pc known hknown
      rw [Std.HashMap.getElem?_insert]
      split
      · rename_i heq
        rw [← beq_iff_eq.mp heq, hnew] at hknown
        cases hknown
      · exact hknown

/-- The stack was flushed and recorded for a target. -/
structure Enters (site : Site) (s t : State) (target : Nat) (types : List ValueType) : Prop where
  positions : t.positions = s.positions
  entryTypes : ∀ (pc : Nat) (known : List ValueType), s.entryTypes[pc]? = some known →
    t.entryTypes[pc]? = some known
  holds : Holds site t t.stack.entries
  entries : t.stack.entries = merged types
  recorded : t.entryTypes[target]? = some types
  typed : s.stack.entries.map Entry.valueType? = types.reverse.map some
  runs : ∃ moves, t.code.toList = s.code.toList ++ moves ∧ ∀ env values locals core,
    Represents site s s.stack.entries values locals core →
      ∃ core', executeAll site.context env core moves = .fall core' ∧ core'.flags = core.flags ∧
        core'.history = core.history ∧ Represents site t t.stack.entries values locals core'

/-- Flushing the stack and recording it for a target. -/
theorem enters_of_flush {target : Nat} {b : Unit} (hs : Holds site s s.stack.entries)
    (hflush : Yields (flush site pc) s a u) (hrecord : Yields (recordEntry pc target) u b t) :
    ∃ types, Enters site s t target types := by
  have hlength : s.stack.entries.length ≤ site.maxStack.toNat :=
    Nat.le_trans (length_le_words _) (hs.words ▸ hs.depth)
  obtain ⟨hrewrites, types, hentries⟩ :
      Rewrites site s u s.stack.entries u.stack.entries ∧ ∃ types, u.stack.entries = merged types :=
    rewrites_flush (fun _ hx => absurd hx List.not_mem_nil) hs.tidy hlength hflush
  have hu : Holds site u u.stack.entries :=
    Holds.rewrites (show Holds site s ([] ++ s.stack.entries) from hs) hrewrites
  obtain ⟨hstack, hcode, hpositions, ht, hrecorded, hkept⟩ := hu.record hentries hrecord
  obtain ⟨moves, hmoves, hruns⟩ := hrewrites.runs
  refine ⟨types, hpositions.trans hrewrites.positions, ?_, ht, hstack ▸ hentries, hrecorded, ?_,
    moves, hcode ▸ hmoves, ?_⟩
  · intro pc known hknown
    exact hkept pc known (hrewrites.entryTypes ▸ hknown)
  · rw [← hrewrites.types, hentries, map_valueType?_merged]
  · intro env values locals core hrep
    obtain ⟨core', hexec, hflags, hhistory, hrep'⟩ := hruns env values locals core hrep
    exact ⟨core', hexec, hflags, hhistory, hstack ▸ hrep'.congr hcode⟩

/-- Going to a distance that is not before the code. -/
theorem jump_of_le {locals : Frame} {values : List Value} {history : List Event}
    {displacement : Int}
    (h : 0 ≤ pc + displacement) : StackMachine.jump ⟨pc, locals, values, history⟩ displacement =
      .next ⟨(pc + displacement).toNat, locals, values, history⟩ :=
  if_pos h

/-- A jump. -/
theorem simulates_jump {displacement : Int} (hs : Holds site s s.stack.entries)
    (htarget : 0 ≤ pc + displacement) (h : Yields (emitBranch site pc none displacement) s a t) :
    Simulates site s t .transfer pc next (some (pc + displacement)) fun env st =>
      StackMachine.execute r env st next (.jump displacement) := by
  simp only [emitBranch, yields_bind, yields_modify] at h
  obtain ⟨_, u, hflush, _, v, hrecord, rfl⟩ := h
  obtain ⟨types, henters⟩ := enters_of_flush hs hflush hrecord
  obtain ⟨moves, hmoves, hruns⟩ := henters.runs
  refine ⟨henters.positions, henters.entryTypes, henters.holds.congr rfl rfl,
    moves ++ [.branch none pc (pc + displacement).toNat], ?_, ?_⟩
  · rw [Array.toList_push, hmoves, List.append_assoc]
  · intro env values locals core hrep
    obtain ⟨core', hexec, -, hhistory, hrep'⟩ := hruns env values locals core hrep
    rw [executeAll_append hexec, executeAll_singleton]
    simp only [StackMachine.execute.eq_def, jump_of_le htarget]
    refine ⟨rfl, rfl, hhistory.symm, types, henters.recorded, ?_⟩
    rw [henters.entries] at hrep'
    exact hrep'.of_typed (map_valueType?_merged types) rfl

/-- A conditional jump. -/
theorem simulates_branch {condition : Condition} {displacement : Int} {b : Unit}
    (hs : Holds site s s.stack.entries) (htarget : 0 ≤ pc + displacement)
    (hcompare : Yields (lowerComparison site pc comparison) s a u)
    (hbranch : Yields (emitBranch site pc (some condition) displacement) u b t) :
    Simulates site s t .next pc next (some (pc + displacement)) fun env st =>
      StackMachine.execute r env st next (.branch comparison condition displacement) := by
  have hcompares := compares_lowerComparison hs hcompare
  simp only [emitBranch, yields_bind, yields_modify] at hbranch
  obtain ⟨_, v, hflush, _, w, hrecord, rfl⟩ := hbranch
  obtain ⟨types, henters⟩ := enters_of_flush hcompares.holds hflush hrecord
  obtain ⟨chunk, hchunk, hcompared⟩ := hcompares.runs
  obtain ⟨moves, hmoves, hruns⟩ := henters.runs
  refine ⟨henters.positions.trans hcompares.positions, ?_, henters.holds.congr rfl rfl,
    chunk ++ (moves ++ [.branch (some condition) pc (pc + displacement).toNat]), ?_, ?_⟩
  · intro target known hknown
    exact henters.entryTypes target known (hcompares.entryTypes ▸ hknown)
  · rw [Array.toList_push, hmoves, hchunk, List.append_assoc, List.append_assoc]
  · intro env values locals core hrep
    obtain ⟨order, rest, core₁, hstack, hexec₁, hflags₁, hhistory₁, hrep₁⟩ :=
      hcompared env values locals core _ hrep henters.typed
    obtain ⟨core₂, hexec₂, hflags₂, hhistory₂, hrep₂⟩ := hruns env rest locals core₁ hrep₁
    rw [henters.entries] at hrep₂
    have hhistory : core.history = core₂.history := (hhistory₂.trans hhistory₁).symm
    rw [executeAll_append hexec₁, executeAll_append hexec₂, executeAll_singleton]
    simp only [StackMachine.execute.eq_def, hstack, Emitted.execute, Core.branch, hflags₂, hflags₁]
    cases hholds : conditionHolds condition order with
    | true =>
        simp only [if_true, jump_of_le htarget]
        exact ⟨rfl, rfl, hhistory, types, henters.recorded,
          hrep₂.of_typed (map_valueType?_merged types) rfl⟩
    | false =>
        simp only [Bool.false_eq_true, if_false]
        refine ⟨rfl, rfl, hhistory, ?_⟩
        rw [henters.entries]
        exact hrep₂.of_typed (map_valueType?_merged types) rfl

/-- A return. -/
theorem simulates_ret {ty : Option ValueType} {arg : Option Operand}
    (hs : Holds site s s.stack.entries) (hpop : Yields (ty.mapM (popTyped site pc)) s arg u)
    (hemit : Yields (emit { kind := .ret ty, args := arg.toList }) u a t) :
    Simulates site s t .transfer pc next target? fun env st =>
      StackMachine.execute r env st next (.ret ty) := by
  obtain rfl := yields_emit.mp hemit
  cases ty with
  | none =>
      obtain ⟨rfl, rfl⟩ := yields_pure.mp hpop
      refine ⟨rfl,
        fun _ _ => id, hs.congr rfl rfl, [.inst { kind := .ret none }], Array.toList_push, ?_⟩
      intro env values locals core hrep
      exact ⟨rfl, rfl, hrep.frame⟩
  | some ty =>
      obtain ⟨b, hpopped, rfl⟩ := yields_map.mp hpop
      obtain ⟨e, hentries, hty, hb, hquiet⟩ := quiet_popTyped u.stack.entries hpopped
      rw [← hentries] at hquiet
      refine ⟨hquiet.positions, fun target known => hquiet.entryTypes ▸ id,
        (hquiet.holds hs).congr rfl rfl, [.inst { kind := .ret (some ty), args := [b] }], ?_, ?_⟩
      · rw [Array.toList_push, hquiet.code]
        rfl
      · intro env values locals core hrep
        rw [hentries, represents_cons hty] at hrep
        obtain ⟨v, rest, rfl, hv, hrep⟩ := hrep
        simp only [StackMachine.execute.eq_def, if_pos (hv.type hty), executeAll_singleton,
          Emitted.execute, Core.execute, hv.readOperand hty hb]
        exact ⟨rfl, rfl, hrep.frame⟩

/-! ### All instructions -/

/-- An entry takes two words if its type is wide, and one otherwise. -/
theorem Entry.words_eq {e : Entry} (hty : e.valueType? = some ty) :
    e.words = if ty.isWide then 2 else 1 := by
  rw [Entry.words, hty]
  rfl

/-- An entry of two words has a type. -/
theorem Entry.exists_wide {e : Entry} (h : e.words = 2) :
    ∃ ty, e.valueType? = some ty ∧ ty.isWide = true := by
  cases hty : e.valueType? with
  | none =>
      rw [Entry.words, hty] at h
      cases h
  | some ty =>
      refine ⟨ty, rfl, ?_⟩
      rw [Entry.words_eq hty] at h
      revert h
      cases ty.isWide <;> decide

/-- The code that is emitted for an instruction does what the instruction does. -/
theorem simulates_lowerInstr {l : Located} {flow : Flow} (hr : site.Describes r)
    (hctx : Positioned site.context) (htarget : ∀ target, l.target? = some target → 0 ≤ target)
    (hs : Holds site s s.stack.entries) (h : Yields (lowerInstr site l) s flow t) :
    Simulates site s t flow l.pc l.next l.target? fun env st =>
      StackMachine.execute r env st l.next l.instr := by
  by_cases hoperation : isOperation l.instr = true
  · rcases lowerInstr_of_isOperation site hoperation with
      ⟨kind, front, op, hperforms, hlower⟩ | ⟨error, -, hlower⟩
    · rw [hlower] at h
      simp only [yields_bind, yields_pure] at h
      obtain ⟨_, _, hlower, rfl, rfl⟩ := h
      simp only [execute_eq_operate (stackMachine_operation? hr hperforms)]
      exact simulates_operation (operation?_of_performs hctx hperforms) hs hlower
    · rw [hlower] at h
      exact absurd h yields_throw
  cases hinstr : l.instr with
  | nop =>
      simp only [lowerInstr, hinstr, yields_pure] at h
      obtain ⟨rfl, rfl⟩ := h
      exact simulates_of_quiet hs .refl fun env values locals core hrep => ⟨values, rfl, hrep⟩
  | push value =>
      simp only [lowerInstr, hinstr, yields_bind, yields_pure] at h
      obtain ⟨_, _, hpush, rfl, rfl⟩ := h
      exact simulates_push hs hpush rfl rfl trivial fun env values locals core hrep => ⟨_, rfl, rfl⟩
  | pushConstant index wide =>
      simp only [lowerInstr, hinstr, yields_bind, yields_pure] at h
      obtain ⟨_, _, hlower, rfl, rfl⟩ := h
      exact simulates_constant hr hs hlower
  | load ty index =>
      simp only [lowerInstr, hinstr, yields_bind, yields_pure] at h
      obtain ⟨_, _, hcheck, _, _, hpush, rfl, rfl⟩ := h
      exact simulates_load hr hs hcheck hpush
  | store ty index =>
      simp only [lowerInstr, hinstr, yields_bind, yields_pure] at h
      obtain ⟨_, _, hlower, rfl, rfl⟩ := h
      exact simulates_store hr hs hlower
  | increment index delta =>
      simp only [lowerInstr, hinstr, yields_bind, yields_pure] at h
      obtain ⟨_, _, hlower, rfl, rfl⟩ := h
      exact simulates_increment hr hs hlower
  | pop =>
      simp only [lowerInstr, hinstr, yields_bind, yields_popWord, yields_pure] at h
      obtain ⟨e, _, ⟨hpop, ty, hty, hnarrow⟩, _, _, hrelease, rfl, rfl⟩ := h
      refine simulates_drop hs hpop hty hrelease fun env locals x rest history hx => ?_
      simp [StackMachine.execute.eq_def, hx, hnarrow]
  | pop2 =>
      simp only [lowerInstr, hinstr, yields_bind, yields_discard, yields_typeOf] at h
      obtain ⟨e₁, _, hpop₁, _, _, ⟨ty, hty, rfl⟩, _, _, hrelease₁, h⟩ := h
      rw [yields_ite] at h
      rcases h with ⟨hwords, h⟩ | ⟨hwords, h⟩
      · simp only [yields_bind, yields_pure] at h
        obtain ⟨e₂, _, hpop₂, _, _, hrelease₂, rfl, rfl⟩ := h
        exact simulates_pop2 hs hpop₁ hty (by simpa [Entry.words_eq hty] using hwords) hrelease₁
          hpop₂ hrelease₂
      · simp only [yields_pure] at h
        obtain ⟨rfl, rfl⟩ := h
        refine simulates_drop hs hpop₁ hty hrelease₁ fun env locals x rest history hx => ?_
        have hwide : ty.isWide = true := by simpa [Entry.words_eq hty] using hwords
        simp [StackMachine.execute.eq_def, hx, hwide]
  | dup =>
      simp only [lowerInstr, hinstr, yields_bind, yields_popWord, yields_pure] at h
      obtain ⟨e, _, ⟨hpop, ty, hty, hnarrow⟩, copy, _, hcopy, _, _, hpush₁, _, _, hpush₂, rfl,
          rfl⟩ := h
      obtain ⟨hentries, hpopped⟩ := quiet_pop site s.stack.entries hpop
      refine simulates_dup hs hentries hty hpopped hcopy hpush₁ hpush₂
        fun env locals x rest history hx => ?_
      simp [StackMachine.execute.eq_def, hx, hnarrow]
  | dupX1 =>
      simp only [lowerInstr, hinstr, yields_bind, yields_pure] at h
      obtain ⟨e₁, _, hpop₁, e₂, _, hpop₂, copy, _, hcopy, _, _, hpush₁, _, _, hpush₂, _, _, hpush₃,
        rfl, rfl⟩ := h
      exact simulates_dupX1 hs hpop₁ hpop₂ hcopy hpush₁ hpush₂ hpush₃
  | dup2 =>
      simp only [lowerInstr, hinstr, yields_bind] at h
      obtain ⟨e₁, _, hpop₁, h⟩ := h
      by_cases hwords : e₁.words = 2
      · simp only [hwords, if_true, yields_bind, yields_pure] at h
        obtain ⟨copy, _, hcopy, _, _, hpush₁, _, _, hpush₂, rfl, rfl⟩ := h
        obtain ⟨ty, hty, hwide⟩ := Entry.exists_wide hwords
        obtain ⟨hentries, hpopped⟩ := quiet_pop site s.stack.entries hpop₁
        refine simulates_dup hs hentries hty hpopped hcopy hpush₁ hpush₂
          fun env locals x rest history hx => ?_
        simp [StackMachine.execute.eq_def, hx, hwide]
      · simp only [hwords, if_false, yields_bind, yields_discard, yields_typeOf, yields_pure] at h
        obtain ⟨_, _, ⟨ty, hty, rfl⟩, e₂, _, hpop₂, copy₂, _, hcopy₂, copy₁, _, hcopy₁, _,
          _, hpush₁, _, _, hpush₂, _, _, hpush₃, _, _, hpush₄, rfl, rfl⟩ := h
        exact simulates_dup2 hs hpop₁ hty (by simpa [Entry.words_eq hty] using hwords) hpop₂ hcopy₂
          hcopy₁ hpush₁ hpush₂ hpush₃ hpush₄
  | swap =>
      simp only [lowerInstr, hinstr, yields_bind, yields_pure] at h
      obtain ⟨e₁, _, hpop₁, e₂, _, hpop₂, _, _, hpush₁, _, _, hpush₂, rfl, rfl⟩ := h
      exact simulates_swap hs hpop₁ hpop₂ hpush₁ hpush₂
  | binary | negate | floatBinary | floatNegate | convert | invokeStatic | newArray | arrayLength
  | arrayLoad | arrayStore => exact absurd (by rw [hinstr]; rfl) hoperation
  | compareLong =>
      simp only [lowerInstr, hinstr, yields_bind, yields_pure] at h
      obtain ⟨b, _, hpop₁, a, _, hpop₂, _, _, hemit, _, _, hpush, rfl, rfl⟩ := h
      exact simulates_compareLong hs hpop₁ hpop₂ hemit hpush
  | branch comparison condition displacement =>
      simp only [lowerInstr, hinstr, yields_bind, yields_pure] at h
      obtain ⟨_, _, hcompare, _, _, hbranch, rfl, rfl⟩ := h
      have hgoes : l.target? = some (l.pc + displacement) := by
        simp [Located.target?, hinstr, Instr.displacement?]
      rw [hgoes]
      exact simulates_branch hs (htarget _ hgoes) hcompare hbranch
  | jump displacement =>
      simp only [lowerInstr, hinstr, yields_bind, yields_pure] at h
      obtain ⟨_, _, hbranch, rfl, rfl⟩ := h
      have hgoes : l.target? = some (l.pc + displacement) := by
        simp [Located.target?, hinstr, Instr.displacement?]
      rw [hgoes]
      exact simulates_jump hs (htarget _ hgoes) hbranch
  | ret ty =>
      simp only [lowerInstr, hinstr, yields_bind, yields_pure] at h
      obtain ⟨arg, _, hpop, _, _, hemit, rfl, rfl⟩ := h
      exact simulates_ret hs hpop hemit
  | unsupported =>
      simp only [lowerInstr, hinstr] at h
      exact absurd h yields_throw

end SlotJit.Lowering

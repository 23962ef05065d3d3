import SlotJit.Proofs.Lowering.Representation

/-!
# Emitted code in a body

The body of a method is its emitted code with the positions that branches name replaced by indices,
and with marks. Neither changes what an instruction does: `run_chunk` says that the slot machine, at
the start of a stretch of code in the body, does what executing the emitted stretch does.
-/

namespace SlotJit.Lowering

open SlotJit.Bytecode SlotJit.Ir SlotJit.Semantics SlotJit.Tables

variable {context : Context} {env : Environment} {positions : Std.HashMap Nat Nat}
  {code : List Inst} {inst : Inst} {emitted : List Emitted} {core : Core}

/-! ### Resolving and marking -/

/-- Marking instructions changes nothing but their marks. -/
theorem getElem?_markFrom {targets : Std.HashSet Nat} {index : Nat} {afterJump : Bool} {i : Nat}
    (h : code[i]? = some inst) :
    ∃ marks, (markFrom targets index afterJump code)[i]? = some { inst with marks } := by
  induction code generalizing index afterJump i with
  | nil => cases h
  | cons first rest ih =>
      cases i with
      | zero =>
          cases h
          exact ⟨_, rfl⟩
      | succ i => exact ih h

theorem length_markFrom (targets : Std.HashSet Nat) (index : Nat) (afterJump : Bool)
    (code : List Inst) : (markFrom targets index afterJump code).length = code.length := by
  induction code generalizing index afterJump with
  | nil => rfl
  | cons first rest ih => rw [markFrom, List.length_cons, ih, List.length_cons]

/-- What a branch is resolved to. -/
theorem resolve_branch {condition : Option Condition} {pc target : Nat}
    (h : resolve positions (.branch condition pc target) = .ok inst) :
    ∃ index, positions[target]? = some index ∧
      (condition = none ∧ inst = { kind := .jump, args := [.branch index] } ∨
        ∃ c, condition = some c ∧
        inst = { kind := .jumpIf c, args := [.branch index, .flags] }) := by
  simp only [resolve] at h
  split at h
  · cases h
  · rename_i index hindex
    refine ⟨index, hindex, ?_⟩
    cases condition with
    | none =>
        cases h
        exact .inl ⟨rfl, rfl⟩
    | some c =>
        cases h
        exact .inr ⟨c, rfl, rfl⟩

/-- Code is emitted code with its branches resolved, up to marks. -/
structure Resolved (positions : Std.HashMap Nat Nat) (emitted : List Emitted) (code : List Inst) :
    Prop where
  length : code.length = emitted.length
  getElem? : ∀ (i : Nat) (e : Emitted), emitted[i]? = some e →
    ∃ inst marks, resolve positions e = .ok inst ∧ code[i]? = some { inst with marks }

/-- What stands at an index of code was emitted there. -/
theorem Resolved.exists_of_getElem? {i : Nat} (h : Resolved positions emitted code)
    (hinst : code[i]? = some inst) :
    ∃ e inst' marks, emitted[i]? = some e ∧ resolve positions e = .ok inst' ∧
      inst = { inst' with marks } := by
  have hi : i < emitted.length := h.length ▸ (List.getElem?_eq_some_iff.mp hinst).1
  obtain ⟨inst', marks, hresolve, hcode⟩ := h.getElem? i _ (List.getElem?_eq_getElem hi)
  exact ⟨_, inst', marks, List.getElem?_eq_getElem hi, hresolve,
    Option.some.inj (hinst.symm.trans hcode)⟩

/-- What stands in code was emitted. -/
theorem Resolved.exists_of_mem (h : Resolved positions emitted code) (hinst : inst ∈ code) :
    ∃ e ∈ emitted, ∃ inst' marks, resolve positions e = .ok inst' ∧
      inst = { inst' with marks } := by
  obtain ⟨i, hi⟩ := List.mem_iff_getElem?.mp hinst
  obtain ⟨e, inst', marks, he, hresolve, hinst'⟩ := h.exists_of_getElem? hi
  exact ⟨e, List.mem_of_getElem? he, inst', marks, hresolve, hinst'⟩

theorem resolved_markBlocks (h : emitted.mapM (resolve positions) = .ok code) :
    Resolved positions emitted (markBlocks code) := by
  obtain ⟨hlength, hget⟩ := getElem?_of_mapM h
  refine ⟨(length_markFrom _ _ _ _).trans hlength, fun i e he => ?_⟩
  obtain ⟨inst, hinst, hcode⟩ := hget i e he
  obtain ⟨marks, hmarks⟩ := getElem?_markFrom hcode
  exact ⟨inst, marks, hinst, hmarks⟩

/-! ### Whole methods -/

/-- What lowering knows of a method of a class. -/
def Site.of (context : Context) (owner : ClassTable) (method : Method) (stream : Stream) : Site :=
  { context, constants := owner.constants, maxLocals := method.maxLocals,
    maxStack := method.maxStack, targets := stream.targets }

/-- A method was lowered one instruction after the other, up to the state `fin`, and what was
emitted was resolved. -/
structure Lowered (context : Context) (owner : ClassTable) (method : Method) (stream : Stream)
    (fin : State) (body : Body) : Prop where
  scan : Stream.scan method.bytecode = .ok stream
  run : Yields (stream.instrs.forM (lowerAt (.of context owner method stream))) {} () fin
  resolved : Resolved fin.positions fin.code.toList body.code
  frameSlots : body.frameSlots = (Site.of context owner method stream).tmpIndex fin.stack.tmpCount

/-- The body of a method is resolved code with marks. -/
theorem exists_of_lower {owner : ClassTable} {method : Method} {body : Body}
    (h : lower context owner method = .ok body) :
    ∃ stream fin code, Stream.scan method.bytecode = .ok stream ∧
      Yields (stream.instrs.forM (lowerAt (.of context owner method stream))) {} () fin ∧
      fin.code.toList.mapM (resolve fin.positions) = .ok code ∧
      body = ⟨markBlocks code,
        (Site.of context owner method stream).tmpIndex fin.stack.tmpCount⟩ := by
  unfold lower at h
  split at h
  · cases h
  · rename_i stream hscan
    obtain ⟨⟨⟨⟩, fin⟩, hrun, h⟩ := bind_eq_ok.mp h
    obtain ⟨code, hcode, h⟩ := bind_eq_ok.mp h
    cases h
    exact ⟨stream, fin, code, hscan, hrun, hcode, rfl⟩

theorem exists_lowered {owner : ClassTable} {method : Method} {body : Body}
    (h : lower context owner method = .ok body) :
    ∃ stream fin, Lowered context owner method stream fin body := by
  obtain ⟨stream, fin, code, hscan, hrun, hcode, rfl⟩ := exists_of_lower h
  exact ⟨stream, fin, hscan, hrun, resolved_markBlocks hcode, rfl⟩

/-! ### Running -/

/-- What an emitted instruction leads to, with branches resolved. -/
def Exit.Resolves (positions : Std.HashMap Nat Nat) : Exit Nat → Exit Nat → Prop
  | .goto target core, exit => ∃ index, positions[target]? = some index ∧ exit = .goto index core
  | .stuck, _ => True
  | exit, exit' => exit' = exit

/-- A jump that is no branch makes no sense. -/
theorem execute_of_isJump (h : inst.kind.isJump = true) :
    (core.execute context env inst : Exit Nat) = .stuck := by
  obtain ⟨kind, dst, args, marks⟩ := inst
  cases kind with
  | jump | jumpIf => simp [Core.execute, operation?]
  | move | arith | neg | floatArith | floatNeg | convert | compare | callStatic | callNative | ret
  | newIntArray | arrayLen | intArrayGet | intArraySet => cases h

/-- An instruction that is no jump is executed without regard to its position. -/
theorem execute_of_not_isJump (h : inst.kind.isJump = false) :
    SlotMachine.execute context env core inst = core.execute context env inst := by
  obtain ⟨kind, dst, args, marks⟩ := inst
  cases kind with
  | jump | jumpIf => cases h
  | move | arith | neg | floatArith | floatNeg | convert | compare | callStatic | callNative | ret
  | newIntArray | arrayLen | intArrayGet | intArraySet => rfl

/-- An operation does not branch. -/
theorem operate_ne_goto {core' : Core} {op : Operation} {args : List Operand} {dst : Option Operand}
    {target : Nat} : core.operate env op args dst ≠ .goto target core' := by
  intro h
  unfold Core.operate at h
  repeat' split at h
  all_goals cases h

/-- An instruction that is no jump does not branch. -/
theorem execute_ne_goto {core' : Core} {target : Nat} :
    core.execute context env inst ≠ .goto target core' := by
  intro h
  unfold Core.execute at h
  repeat' split at h
  all_goals first | cases h | exact operate_ne_goto h

/-- A resolved instruction does what the emitted one does. -/
theorem execute_resolve {e : Emitted} (h : resolve positions e = .ok inst) (marks : Marks)
    (context : Context) (env : Environment) (core : Core) :
    Exit.Resolves positions (e.execute context env core)
      (SlotMachine.execute context env core { inst with marks }) := by
  cases e with
  | inst i =>
      cases h
      cases hjump : inst.kind.isJump with
      | true =>
          rw [Emitted.execute, execute_of_isJump hjump]
          trivial
      | false =>
          have hsame : SlotMachine.execute context env core { inst with marks } =
            core.execute context env inst := execute_of_not_isJump hjump
          rw [Emitted.execute, hsame]
          cases hexec : core.execute context env inst with
          | goto target core' => exact absurd hexec execute_ne_goto
          | fall | halt => rfl
          | stuck => trivial
  | branch condition pc target =>
      simp only [resolve] at h
      cases hindex : positions[target]? with
      | none =>
          rw [hindex] at h
          cases h
      | some index =>
          rw [hindex] at h
          cases condition with
          | none =>
              cases h
              exact ⟨index, hindex, rfl⟩
          | some condition =>
              cases h
              show Exit.Resolves positions (core.branch (some condition) target)
                (core.branch (some condition) index)
              cases hflags : core.flags with
              | none =>
                  simp only [Core.branch, hflags]
                  trivial
              | some order =>
                  cases hholds : conditionHolds condition order with
                  | true =>
                      simp only [Core.branch, hflags, hholds, if_true]
                      exact ⟨index, hindex, rfl⟩
                  | false =>
                      simp only [Core.branch, hflags, hholds, Bool.false_eq_true, if_false]
                      rfl

/-- What a stretch of emitted code leads to, as a run from its start in the body. -/
def Exit.Runs (positions : Std.HashMap Nat Nat)
    (step : SlotMachine.State → Step Outcome SlotMachine.State)
    (start : SlotMachine.State) (length : Nat) : Exit Nat → Prop
  | .fall core => run step length start = .next ⟨start.index + length, core⟩
  | .goto target core => ∃ m index, 0 < m ∧ positions[target]? = some index ∧
      run step m start = .next ⟨index, core⟩
  | .halt outcome core => ∃ m index, run step m start = .halt outcome ⟨index, core⟩
  | .stuck => True

/-- The slot machine runs a stretch of code in a body as the emitted code says. -/
theorem run_chunk {pre chunk post : List Emitted} {body : Body}
    (hresolved : Resolved positions emitted body.code) (hemitted : emitted = pre ++ chunk ++ post)
    (context : Context) (env : Environment) (core : Core) :
    Exit.Runs positions (SlotMachine.step context env body) ⟨pre.length, core⟩ chunk.length
      (executeAll context env core chunk) := by
  induction chunk generalizing pre core with
  | nil => rfl
  | cons e chunk ih =>
      have hget : emitted[pre.length]? = some e := by simp [hemitted]
      obtain ⟨inst, marks, hinst, hcode⟩ := hresolved.getElem? _ e hget
      have hresolves := execute_resolve hinst marks context env core
      have hemitted' : emitted = (pre ++ [e]) ++ chunk ++ post := by simp [hemitted]
      rw [executeAll]
      cases hexec : e.execute context env core with
      | stuck => trivial
      | goto target core' =>
          rw [hexec] at hresolves
          obtain ⟨index, hindex, hexec'⟩ := hresolves
          have hstep : SlotMachine.step context env body ⟨pre.length, core⟩ =
              .next ⟨index, core'⟩ := by
            simp only [SlotMachine.step, hcode, hexec']
          exact ⟨1, index, Nat.one_pos, hindex, run_succ_of_next hstep 0⟩
      | halt outcome core' =>
          rw [hexec] at hresolves
          have hstep : SlotMachine.step context env body ⟨pre.length, core⟩ =
              .halt outcome ⟨pre.length, core'⟩ := by
            simp only [SlotMachine.step, hcode, show _ = _ from hresolves]
          exact ⟨1, pre.length, run_succ_of_halt hstep 0⟩
      | fall core' =>
          rw [hexec] at hresolves
          have hstep : SlotMachine.step context env body ⟨pre.length, core⟩ =
              .next ⟨(pre ++ [e]).length, core'⟩ := by
            simp only [SlotMachine.step, hcode, show _ = _ from hresolves, List.length_append,
              List.length_singleton]
          have hrest := ih hemitted' core'
          simp only
          cases hall : executeAll context env core' chunk with
          | stuck => trivial
          | fall core'' =>
              rw [hall] at hrest
              simp only [Exit.Runs] at hrest ⊢
              rw [List.length_cons, run_succ_of_next hstep, hrest, List.length_append,
                List.length_singleton, Nat.add_assoc, Nat.add_comm 1]
          | goto target core'' =>
              rw [hall] at hrest
              obtain ⟨m, index, hpos, hindex, hrun⟩ := hrest
              exact ⟨m + 1, index, Nat.succ_pos m, hindex, by rw [run_succ_of_next hstep, hrun]⟩
          | halt outcome core'' =>
              rw [hall] at hrest
              obtain ⟨m, index, hrun⟩ := hrest
              exact ⟨m + 1, index, by rw [run_succ_of_next hstep, hrun]⟩

end SlotJit.Lowering

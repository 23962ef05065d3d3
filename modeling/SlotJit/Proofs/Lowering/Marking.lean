import SlotJit.Proofs.Lowering.Provenance

/-!
# Marks of basic blocks

Once every branch has its index, the instructions of a body are marked: the entry and what jumps go
to as targets, and these together with what comes right after a jump as leaders of blocks. Marks are
made in one pass that carries whether the instruction before was a jump.

A return is no jump in this pass. Control does not go on after a return, so only code that no branch
goes to is concerned: right after a return it continues the block of the return.

## Main results

* `marks_of_markFrom`: the marks that the pass makes.
* `branch_of_resolve`: where the branches of a body go.
* `lower_marks_blocks`: the marks of a lowered body.
-/

namespace SlotJit.Lowering

open SlotJit.Bytecode SlotJit.Ir SlotJit.Semantics SlotJit.Tables

variable {site : Site} {l : Located} {pc : Nat} {s t fin : State} {ty : ValueType}

/-! ### The pass over the code -/

/-- Some jump names the instruction at an index as its target. -/
def JumpedTo (code : List Inst) (i : Nat) : Prop :=
  ∃ jump ∈ code, jump.kind.isJump = true ∧ .branch (i : Int) ∈ jump.args

/-- The instruction right before an index is a jump. -/
def FollowsJump (code : List Inst) (i : Nat) : Prop :=
  ∃ j jump, i = j + 1 ∧ code[j]? = some jump ∧ jump.kind.isJump = true

/-- The marks at an index, counted from where the pass starts. -/
theorem marks_of_markFrom {targets : Std.HashSet Nat} {index i : Nat} {afterJump : Bool}
    {code : List Inst} {inst : Inst} (h : (markFrom targets index afterJump code)[i]? = some inst) :
    (inst.marks.isTarget = true ↔ index + i ∈ targets) ∧
      (inst.marks.leadsBlock = true ↔
        index + i ∈ targets ∨ i = 0 ∧ afterJump = true ∨ FollowsJump code i) := by
  induction code generalizing index afterJump i with
  | nil => cases h
  | cons first rest ih =>
      rcases i with - | i
      · cases h
        have hno : ¬ FollowsJump (first :: rest) 0 := by
          rintro ⟨j, jump, hj, -⟩
          omega
        simp [hno]
      · obtain ⟨htarget, hleads⟩ := ih h
        have hfollows : FollowsJump (first :: rest) (i + 1) ↔
            i = 0 ∧ first.kind.isJump = true ∨ FollowsJump rest i := by
          constructor
          · rintro ⟨j, jump, hj, hget, hjump⟩
            obtain rfl : i = j := by omega
            rcases i with - | i
            · cases hget
              exact .inl ⟨rfl, hjump⟩
            · exact .inr ⟨i, jump, rfl, hget, hjump⟩
          · rintro (⟨rfl, hjump⟩ | ⟨j, jump, rfl, hget, hjump⟩)
            · exact ⟨0, first, rfl, rfl, hjump⟩
            · exact ⟨j + 1, jump, rfl, hget, hjump⟩
        have hindex : index + (i + 1) = index + 1 + i := by omega
        rw [hindex, hfollows]
        refine ⟨htarget, hleads.trans ?_⟩
        simp

/-- Jumps name their targets by indices, in front of all else. -/
def BranchesFirst (code : List Inst) : Prop :=
  ∀ jump ∈ code, jump.kind.isJump = true →
    ∃ (target : Nat) (rest : List Operand), jump.args = .branch target :: rest ∧
      ∀ other, .branch other ∉ rest

/-- The targets of jumps, and the start. -/
theorem mem_jumpTargets {code : List Inst} (hcode : BranchesFirst code) {i : Nat} :
    i ∈ jumpTargets code ↔ i = 0 ∨ JumpedTo code i := by
  rw [jumpTargets, Std.HashSet.mem_ofList, List.contains_iff_mem, List.mem_cons, List.mem_filterMap]
  refine or_congr_right ⟨?_, ?_⟩
  · rintro ⟨jump, hmem, hsome⟩
    split at hsome
    · rename_i target rest hjump hargs
      obtain ⟨index, rest', hargs', -⟩ := hcode jump hmem hjump
      cases hsome
      cases hargs.symm.trans hargs'
      exact ⟨jump, hmem, hjump, by rw [hargs']; exact List.mem_cons_self⟩
    · cases hsome
  · rintro ⟨jump, hmem, hjump, hbranch⟩
    obtain ⟨index, rest, hargs, hrest⟩ := hcode jump hmem hjump
    refine ⟨jump, hmem, ?_⟩
    rw [hargs] at hbranch ⊢
    rcases List.mem_cons.mp hbranch with heq | hbranch
    · cases heq
      simp [hjump]
    · exact absurd hbranch (hrest _)

/-! ### Branches of emitted code -/

/-- All that lowering emits, with branches apart, names no place to go to. -/
theorem aimless_of_forM {instrs : List Located} {a : Unit} (hs : Orderly site s)
    (h : Yields (instrs.forM (lowerAt site)) s a t) : Adds Emitted.Aimless s t :=
  adds_forM hs (fun _ => Emitted.Shift.aimless) (fun _ _ _ => Emitted.From.aimless) h

/-! ### Bodies -/

/-- Positions start in the code or at its end. -/
theorem position_le_size {instrs : List Located} (h : Yields (instrs.forM (lowerAt site)) {} () fin)
    {index : Nat} (hindex : fin.positions[pc]? = some index) : index ≤ fin.code.size := by
  obtain ⟨hother, hown⟩ := positions_of_forM (sound_empty site) h
  by_cases hmem : pc ∈ instrs.map Located.pc
  · obtain ⟨index', hindex', -, hle⟩ := hown pc hmem
    rw [hindex, Option.some.injEq] at hindex'
    omega
  · rw [hother pc hmem] at hindex
    simp at hindex

/-- An instruction of resolved code is a jump to an index in the code or at its end, or it names no
place to go to. -/
theorem branch_of_resolve {instrs : List Located}
    (h : Yields (instrs.forM (lowerAt site)) {} () fin)
    {code : List Inst} (hcode : fin.code.toList.mapM (resolve fin.positions) = .ok code)
    {inst : Inst} (hinst : inst ∈ code) :
    (inst.kind.isJump = true ∧ ∃ (target : Nat) (rest : List Operand), target ≤ code.length ∧
        inst.args = .branch target :: rest ∧ ∀ other, .branch other ∉ rest) ∨
      inst.kind.isJump = false ∧ ∀ target, .branch target ∉ inst.args := by
  obtain ⟨added, hadded, haimless⟩ := aimless_of_forM (sound_empty site) h
  obtain ⟨i, hi⟩ := List.mem_iff_getElem?.mp hinst
  obtain ⟨e, he, hresolve⟩ := exists_of_mapM hcode hi
  have hlength : code.length = fin.code.size := (getElem?_of_mapM hcode).1
  cases e with
  | inst i =>
      cases hresolve
      refine .inr (haimless (.inst inst) ?_)
      have hmem := List.mem_of_getElem? he
      rw [hadded] at hmem
      simpa using hmem
  | branch condition pc target =>
      obtain ⟨index, hindex, hkind⟩ := resolve_branch hresolve
      have hle := position_le_size h hindex
      rcases hkind with ⟨-, rfl⟩ | ⟨condition, -, rfl⟩
      · exact .inl ⟨rfl, index, [], by omega, rfl, by simp⟩
      · exact .inl ⟨rfl, index, [.flags], by omega, rfl, by simp⟩

/-- An instruction without its marks. -/
def unmarked (inst : Inst) : Inst := { inst with marks := {} }

/-- Marking changes nothing but marks. -/
theorem map_unmarked_markFrom (targets : Std.HashSet Nat) (index : Nat) (afterJump : Bool)
    (code : List Inst) : (markFrom targets index afterJump code).map unmarked =
      code.map unmarked := by
  induction code generalizing index afterJump with
  | nil => rfl
  | cons inst rest ih => rw [markFrom, List.map_cons, List.map_cons, ih, unmarked, unmarked]

section Unmarked

variable {code code' : List Inst} (h : code.map unmarked = code'.map unmarked)
include h

/-- An instruction has its kind and operands, whatever its marks. -/
theorem getElem?_of_unmarked {i : Nat} {inst : Inst} (hinst : code[i]? = some inst) :
    ∃ inst', code'[i]? = some inst' ∧ inst'.kind = inst.kind ∧ inst'.args = inst.args := by
  have hget : (code'.map unmarked)[i]? = some (unmarked inst) := by
    rw [← h, List.getElem?_map, hinst]; rfl
  rw [List.getElem?_map, Option.map_eq_some_iff] at hget
  obtain ⟨inst', hinst', heq⟩ := hget
  have hkind : (unmarked inst').kind = (unmarked inst).kind := congrArg Inst.kind heq
  have hargs : (unmarked inst').args = (unmarked inst).args := congrArg Inst.args heq
  exact ⟨inst', hinst', hkind, hargs⟩

/-- Where jumps go does not depend on marks. -/
theorem JumpedTo.of_unmarked {i : Nat} (hto : JumpedTo code i) : JumpedTo code' i := by
  obtain ⟨jump, hmem, hjump, hbranch⟩ := hto
  obtain ⟨j, hj⟩ := List.mem_iff_getElem?.mp hmem
  obtain ⟨jump', hj', hkind, hargs⟩ := getElem?_of_unmarked h hj
  exact ⟨jump', List.mem_of_getElem? hj', hkind ▸ hjump, hargs ▸ hbranch⟩

/-- What follows a jump does not depend on marks. -/
theorem FollowsJump.of_unmarked {i : Nat} (hfollows : FollowsJump code i) :
    FollowsJump code' i := by
  obtain ⟨j, jump, hij, hj, hjump⟩ := hfollows
  obtain ⟨jump', hj', hkind, -⟩ := getElem?_of_unmarked h hj
  exact ⟨j, jump', hij, hj', hkind ▸ hjump⟩

end Unmarked

/-- **Marks of a lowered body**: branches go to instructions or to the end of the code, exactly the
entry and what jumps name are marked as targets, and blocks start exactly at targets and right after
jumps. -/
theorem lower_marks_blocks {context : Context} {owner : ClassTable} {method : Method} {body : Body}
    (h : lower context owner method = .ok body) :
    (∀ inst ∈ body.code, ∀ target : Int, .branch target ∈ inst.args →
        0 ≤ target ∧ target ≤ body.code.length) ∧
      ∀ i inst, body.code[i]? = some inst →
        (inst.marks.isTarget = true ↔ i = 0 ∨ JumpedTo body.code i) ∧
        (inst.marks.leadsBlock = true ↔ i = 0 ∨ JumpedTo body.code i ∨
          FollowsJump body.code i) := by
  obtain ⟨stream, fin, code, -, hrun, hcode, hlowered⟩ := exists_of_lower h
  have hbody : body.code = markBlocks code := congrArg Body.code hlowered
  have hsame : body.code.map unmarked = code.map unmarked := by
    rw [hbody]
    exact map_unmarked_markFrom ..
  have hlength : body.code.length = code.length := by simpa using congrArg List.length hsame
  have hto : ∀ i, JumpedTo body.code i ↔ JumpedTo code i := fun i =>
    ⟨.of_unmarked hsame, .of_unmarked hsame.symm⟩
  have hfollows : ∀ i, FollowsJump body.code i ↔ FollowsJump code i := fun i =>
    ⟨.of_unmarked hsame, .of_unmarked hsame.symm⟩
  have hfirst : BranchesFirst code := by
    intro jump hmem hjump
    rcases branch_of_resolve hrun hcode hmem with ⟨-, target, rest, -, hargs⟩ | ⟨hno, -⟩
    · exact ⟨target, rest, hargs⟩
    · exact absurd (hjump.symm.trans hno) (by decide)
  refine ⟨fun inst hmem target hbranch => ?_, fun i inst hinst => ?_⟩
  · obtain ⟨i, hi⟩ := List.mem_iff_getElem?.mp hmem
    obtain ⟨inst', hi', -, hargs⟩ := getElem?_of_unmarked hsame hi
    rw [← hargs] at hbranch
    rcases branch_of_resolve hrun hcode (List.mem_of_getElem? hi') with
      ⟨-, index, rest, hle, hargs', hrest⟩ | ⟨-, hno⟩
    · rw [hargs'] at hbranch
      rcases List.mem_cons.mp hbranch with heq | hbranch
      · cases heq
        omega
      · exact absurd hbranch (hrest _)
    · exact absurd hbranch (hno _)
  · rw [hbody] at hinst
    obtain ⟨htarget, hleads⟩ := marks_of_markFrom hinst
    rw [Nat.zero_add, mem_jumpTargets hfirst] at htarget hleads
    rw [hto, hfollows]
    refine ⟨htarget, hleads.trans ?_⟩
    tauto

/-! ### Code after a return -/

/-- Two returns, and nothing goes to the second. -/
def twoReturns : Method :=
  { name := "f", descriptor := "()V", signature := ⟨[], none⟩, access := ⟨8⟩, id := default,
    maxLocals := 0, maxStack := 0, bytecode := [0xb1, 0xb1] }

/-- The class of `twoReturns`. -/
def twoReturnsOwner : ClassTable := { name := "T", constants := {}, methods := #[twoReturns] }

/-- What `twoReturns` is lowered to. -/
def twoReturnsBody : Body :=
  { code := [{ kind := .ret none, args := [], marks := ⟨true, true⟩ },
      { kind := .ret none, args := [] }]
    frameSlots := 0 }

/-- The body of `twoReturns`. -/
theorem lower_twoReturns : lower { published := #[] } twoReturnsOwner twoReturns =
    .ok twoReturnsBody := by
  have hret : Opcode.ofByte? 0xb1 = some ⟨0xb1, "return", 1, fun _ => .ret none⟩ := rfl
  simp [twoReturns, lower, Stream.scan, split, branchTargets, Located.target?, Located.instr,
    Instr.displacement?, hret]
  simp [lowerAt, lowerInstr, emit, Located.instr, Located.next, OperandStack.resetTo, Site.tmpIndex,
    resolve, markBlocks, jumpTargets, markFrom, Kind.isJump, twoReturnsBody,
    List.mapM_cons, ok_bind]

/-- The second return follows a return and does not start a block. -/
theorem lower_marks_blocks_twoReturns :
    lower { published := #[] } twoReturnsOwner twoReturns = .ok twoReturnsBody ∧
      (∃ first second, twoReturnsBody.code = [first, second] ∧ first.kind.isReturn = true ∧
        second.marks.leadsBlock = false) ∧
      ¬ JumpedTo twoReturnsBody.code 1 ∧ ¬ FollowsJump twoReturnsBody.code 1 := by
  obtain ⟨-, hmarks⟩ := lower_marks_blocks lower_twoReturns
  obtain ⟨-, hleads⟩ := hmarks 1 _ rfl
  have hno : ¬ (1 = 0 ∨ JumpedTo twoReturnsBody.code 1 ∨ FollowsJump twoReturnsBody.code 1) :=
    fun hstarts => Bool.false_ne_true (hleads.mpr hstarts)
  exact ⟨lower_twoReturns, ⟨_, _, rfl, rfl, rfl⟩, fun hto => hno (.inr (.inl hto)),
    fun hfollows => hno (.inr (.inr hfollows))⟩

end SlotJit.Lowering

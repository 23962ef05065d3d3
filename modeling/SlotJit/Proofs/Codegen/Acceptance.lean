import SlotJit.Proofs.Codegen.Success
import SlotJit.Proofs.Lowering.Forms

/-!
# Lowered code is accepted

The templates accept what lowering emits. Whatever the kind of an instruction, its operands are
slots of a frame that is not large, or constants that the template can put into code; a call names a
method of the context and has an argument for each parameter. What is left to refuse is said by
`Refuses`: calls of native methods that take too much or are not bound, and jumps so far that their
target is no label.

## Main results

* `suits_of_formed`: an instruction that lowering emits suits its template.
* `hinders_of_compileMethod`: why a lowered method is not compiled.
-/

namespace SlotJit.Codegen

open SlotJit.CodeMemory SlotJit.Ir SlotJit.Lowering SlotJit.Machine SlotJit.Semantics SlotJit.Tables
  SlotJit.X64

/-! ### Operands of lowered code -/

section Operands

variable {Q : Error → Prop} {site : Site} {inst : Inst} {a b : Operand} {ty : ValueType}
  {fresh stop : Nat}

/-- The parameters are in the local variables that they take words of. -/
theorem lt_of_mem_localIndices {types : List ValueType} {start index : Nat}
    (h : index ∈ Descriptor.localIndices start types) :
    index < start + (types.map ValueType.words).sum := by
  induction types generalizing start with
  | nil => cases h
  | cons ty types ih =>
      rw [List.map_cons, List.sum_cons]
      have hpos := words_pos ty
      rcases List.mem_cons.mp h with rfl | h
      · omega
      · have := ih h
        omega

/-- Targets that fit have labels. -/
theorem branchLabel?_of_lt {target : Nat} (h : target < 2 ^ 32) :
    branchLabel? (.branch target) = some target := by
  have hin : (0 : Int) ≤ target ∧ (target : Int) < 0x100000000 := by omega
  simp only [branchLabel?, hin, and_self, if_true, Int.toNat_natCast]

/-- Other targets have none. -/
theorem branchLabel?_of_le {target : Nat} (h : 2 ^ 32 ≤ target) :
    branchLabel? (.branch target) = none := by
  have hout : ¬ (target : Int) < 0x100000000 := by omega
  simp only [branchLabel?, hout, and_false, if_false]

/-- An operand of a type can be loaded. -/
theorem accepts_of_hasType {count : Nat} (hcount : count < slotBound) (ha : HasType a ty)
    (hin : ∀ index, a = .slot index → index < count) : Accepts Q inst a := by
  cases a with
  | slot index => exact .inl (Nat.lt_trans (hin index rfl) hcount)
  | int | float | double => trivial
  | branch | flags | symbol => exact ha.elim

/-- Operands of the types that are asked for are there and can be loaded. -/
theorem provides_of_hasType {types : List ValueType} (h : List.Forall₂ HasType inst.args types)
    (haccepts : ∀ a ∈ inst.args, ∀ ty, HasType a ty → Accepts Q inst a) :
    Provides Q inst types.length := by
  intro place hplace
  rw [← h.length_eq] at hplace
  have hmem := List.getElem_mem hplace
  obtain ⟨ty, -, hty⟩ := exists_of_forall₂ h.flip hmem
  rw [List.getElem?_eq_getElem hplace]
  exact haccepts _ hmem ty hty

/-- The second operand of integer arithmetic. -/
theorem acceptsIntegral_of_hasType {ty : Integral} (ha : HasType a ty.valueType)
    (haccepts : Accepts Q inst a) : AcceptsIntegral Q inst a := by
  cases a with
  | slot | int => exact haccepts
  | branch | flags | float | double | symbol => cases ty <;> exact ha.elim

/-- A result goes to a slot, which is in reach if all slots are. -/
theorem targets_of_receives (h : Receives inst.dst (some ty))
    (hin : ∀ index, inst.dst = some (.slot index) → index < slotBound) : Targets Q inst := by
  unfold Targets
  cases hdst : inst.dst with
  | none =>
      rw [hdst] at h
      exact h.elim
  | some dst =>
      rw [hdst] at h
      cases dst with
      | slot index => exact .inl (hin index hdst)
      | branch | flags | int | float | double | symbol => exact h.elim

/-- The operation of a call names its callee first. -/
theorem exists_call_of_operation {context : Context} {kind : Kind} {args operands : List Operand}
    {op : Operation} (hkind : kind = .callStatic ∨ kind = .callNative)
    (h : operation? context kind args = some (op, operands)) :
    ∃ id rest, args = .symbol id :: rest ∧
      operation?.call context id (kind == .callNative) rest = some (op, operands) := by
  rcases args with _ | ⟨head, rest⟩
  · rcases hkind with rfl | rfl <;> cases h
  · cases head with
    | symbol id => rcases hkind with rfl | rfl <;> exact ⟨id, rest, rfl, h⟩
    | branch | flags | slot | int | float | double => rcases hkind with rfl | rfl <;> cases h

/-- A call that lowering emits fits its callee. -/
theorem callFits_of_operation {id : SymbolId} {native : Bool} {args operands : List Operand}
    {op : Operation} (hargs : inst.args = .symbol id :: args)
    (hop : operation?.call site.context id native args = some (op, operands))
    (hoperands : List.Forall₂ HasType operands op.params) (hdst : Receives inst.dst op.result)
    (hwords : (op.params.map ValueType.words).sum < 2 ^ 16)
    (haccepts : ∀ a ∈ inst.args, ∀ ty, HasType a ty → Accepts Q inst a)
    (hin : ∀ index, inst.dst = some (.slot index) → index < slotBound) :
    Gives Q (CallFits Q inst) (calleeOf site inst) := by
  obtain ⟨callee, hfound, hcall⟩ := Option.map_eq_some_iff.mp hop
  cases hcall
  have hcallee : calleeOf site inst = .ok callee := by
    simp only [calleeOf, hargs, List.head?_cons, hfound]
  rw [hcallee]
  refine ⟨?_, ?_, ?_, ?_⟩
  · rw [hargs]
    exact fun hcount => absurd hoperands.length_eq hcount
  · intro _ index hindex
    have hlocal := lt_of_mem_localIndices hindex
    have hless : (callee.signature.paramTypes.map ValueType.words).sum < 2 ^ 16 := hwords
    exact .inl (by unfold slotBound; omega)
  · intro a ha
    rw [hargs] at ha
    obtain ⟨ty, -, hty⟩ := exists_of_forall₂ hoperands.flip ha
    exact haccepts a (by rw [hargs]; exact List.mem_cons_of_mem _ ha) ty hty
  · intro ty hty
    exact targets_of_receives (hty ▸ hdst) hin

/-- An operation on operands of its types suits its template. -/
theorem suits_of_operation {operands : List Operand} {op : Operation}
    (hcount : site.frameSlots < slotBound)
    (hop : operation? site.context inst.kind inst.args = some (op, operands))
    (hoperands : List.Forall₂ HasType operands op.params) (hdst : Receives inst.dst op.result)
    (hwords : (op.params.map ValueType.words).sum < 2 ^ 16)
    (haccepts : ∀ a ∈ inst.args, ∀ ty, HasType a ty → Accepts (Refuses site inst) inst a)
    (hin : ∀ index, inst.dst = some (.slot index) → index < slotBound) :
    Suits (Refuses site inst) site inst := by
  unfold Suits
  cases hkind : inst.kind with
  | move | compare | jump | jumpIf | ret =>
      rw [hkind] at hop
      cases hop
  | arith ty op =>
      rw [hkind] at hop
      cases hop
      have hprovides := provides_of_hasType hoperands haccepts
      refine ⟨hprovides, targets_of_receives hdst hin, fun hshift b hb => ?_⟩
      obtain ⟨_, _, -, hrest, heq⟩ := List.forall₂_cons_right_iff.mp hoperands
      obtain ⟨_, _, hsecond, -, rfl⟩ := List.forall₂_cons_right_iff.mp hrest
      rw [heq] at hb
      cases hb
      rw [hshift] at hsecond
      exact acceptsIntegral_of_hasType hsecond (haccepts _ (by simp [heq]) _ hsecond)
  | neg | floatNeg | newIntArray | arrayLen | floatArith | convert | intArrayGet =>
      rw [hkind] at hop
      cases hop
      exact ⟨provides_of_hasType hoperands haccepts, targets_of_receives hdst hin⟩
  | intArraySet =>
      rw [hkind] at hop
      cases hop
      exact provides_of_hasType hoperands haccepts
  | callStatic =>
      rw [hkind] at hop
      obtain ⟨id, args, hargs, hcall⟩ := exists_call_of_operation (.inl rfl) hop
      exact ⟨callFits_of_operation hargs hcall hoperands hdst hwords haccepts hin, .inl hcount⟩
  | callNative =>
      rw [hkind] at hop
      obtain ⟨id, args, hargs, hcall⟩ := exists_call_of_operation (.inr rfl) hop
      exact ⟨callFits_of_operation hargs hcall hoperands hdst hwords haccepts hin, fun _ h => h⟩

/-- An instruction that lowering emits suits its template, unless there is a reason to refuse it.
Labels are numbers of 32 bits, so nothing is said of a body with more instructions than that. -/
theorem suits_of_formed (hcount : site.frameSlots < slotBound) (hin : InFrame site.frameSlots inst)
    (h : Formed site.context inst.kind inst.dst inst.args ∨ JumpsInside stop inst.kind inst.args)
    (hstop : stop < 2 ^ 32) : Suits (Refuses site inst) site inst := by
  have hdst : ∀ index, inst.dst = some (.slot index) → index < slotBound :=
    fun index hindex => Nat.lt_trans (hin.dst index hindex) hcount
  have haccepts : ∀ a ∈ inst.args, ∀ ty, HasType a ty → Accepts (Refuses site inst) inst a := by
    intro a ha ty hty
    exact accepts_of_hasType hcount hty fun index hindex => hin.args index (hindex ▸ ha)
  rcases h with hformed | ⟨target, hinside, hjump⟩
  · obtain ⟨kind, dst, args, marks⟩ := inst
    cases hformed with
    | move hsrc =>
        have hprovides := provides_of_hasType (.cons hsrc .nil) haccepts
        exact ⟨hprovides, .inl (hdst _ rfl)⟩
    | operation op hop hoperands hreceives hwords =>
        exact suits_of_operation hcount hop hoperands hreceives hwords haccepts hdst
    | compare ty ha hb => exact provides_of_hasType (.cons ha (.cons hb .nil)) haccepts
    | ret hargs => exact provides_of_hasType hargs haccepts
  · have hlabel := branchLabel?_of_lt (Nat.lt_of_le_of_lt hinside hstop)
    unfold Suits
    rcases hjump with ⟨hkind, hargs⟩ | ⟨condition, hkind, hargs⟩
    · rw [hkind, hargs, List.head?_cons, Option.bind_some, hlabel]
      exact .inl rfl
    · rw [hkind, hargs, List.head?_cons, Option.bind_some, hlabel]
      exact .inl ⟨rfl, rfl⟩

end Operands

/-! ### Methods -/

section Methods

variable {site : Site} {labels : Std.HashSet Nat} {index fresh stop : Nat} {insts : List Inst}

/-- Instructions are compiled, or the template of one fails. -/
theorem gives_instructionPieces {Q : Error → Prop}
    (h : ∀ inst ∈ insts, ∀ fresh, Gives Q (fun _ => True) (template site fresh inst)) :
    Gives Q (fun _ => True) (instructionPieces site labels index fresh insts) := by
  induction insts generalizing index fresh with
  | nil => trivial
  | cons inst rest ih =>
      obtain ⟨hfirst, hrest⟩ := List.forall_mem_cons.mp h
      exact (hfirst fresh).bind fun _ _ => (ih hrest).bind fun _ _ => trivial

/-- A body is compiled if its frame is in reach, or the template of an instruction fails. -/
theorem gives_bodyPieces_of_templates {Q : Error → Prop} (hframe : InReach Q site.frameSlots)
    (h : ∀ inst ∈ insts, ∀ fresh, Gives Q (fun _ => True) (template site fresh inst)) :
    Gives Q (fun _ => True) (bodyPieces site insts) := by
  have hcheck : Gives Q (fun _ => True) (stackCheck site.frameSlots (insts.length + 1)) :=
    (gives_slotDisp hframe).bind fun _ _ => trivial
  exact hcheck.bind fun _ _ => (gives_instructionPieces h).bind fun _ _ => trivial

/-- The instructions of a body have the form that lowering gives them, and are in a frame that is
not large. -/
structure Acceptable (site : Site) (stop : Nat) (insts : List Inst) : Prop where
  frame : site.frameSlots < slotBound
  inFrame : ∀ inst ∈ insts, InFrame site.frameSlots inst
  formed : ∀ inst ∈ insts, Formed site.context inst.kind inst.dst inst.args ∨
    JumpsInside stop inst.kind inst.args

/-- Reasons to refuse an instruction of a body are reasons to refuse the body. -/
theorem Acceptable.gives_bodyPieces (h : Acceptable site stop insts) (hstop : stop < 2 ^ 32) :
    Gives (fun e => ∃ inst ∈ insts, Refuses site inst e) (fun _ => True) (bodyPieces site insts) :=
  gives_bodyPieces_of_templates (.inl h.frame) fun inst hinst _ =>
    (gives_template (suits_of_formed h.frame (h.inFrame inst hinst) (h.formed inst hinst)
      hstop)).mono (fun _ he => ⟨inst, hinst, he⟩) fun _ _ => trivial

/-- Jumps that stay inside go to labels that are bound. -/
theorem Acceptable.branchesInside (h : Acceptable site insts.length insts) :
    BranchesInside insts := by
  intro inst hinst hjump l hl
  rcases h.formed inst hinst with hformed | ⟨target, htarget, hargs⟩
  · rw [hformed.isJump] at hjump
    cases hjump
  · have hhead : inst.args.head? = some (.branch target) := by
      rcases hargs with ⟨-, hargs⟩ | ⟨_, -, hargs⟩ <;> rw [hargs] <;> rfl
    rw [hhead, Option.bind_some] at hl
    rcases Nat.lt_or_ge target (2 ^ 32) with hnear | hfar
    · rw [branchLabel?_of_lt hnear] at hl
      exact Option.some.inj hl ▸ htarget
    · rw [branchLabel?_of_le hfar] at hl
      cases hl

/-- Why a method that lowering made the body of is not compiled. -/
inductive Hinders (site : Site) (insts : List Inst) : Error → Prop
  | empty (hcode : insts = []) : Hinders site insts .emptyMethod
  | refused {inst : Inst} {e : Error} (hinst : inst ∈ insts)
      (hrefuses : Refuses site inst e) :
      Hinders site insts e
  | memory (cause : MemoryError) : Hinders site insts (.memory cause)

/-- A method that lowering made the body of, and that has labels for all instructions, fails for
these reasons alone. -/
theorem hinders_of_compileMethod {ctx : Context} {natives : Natives} {alloc : Allocator}
    {id : SymbolId} {method : Method} {e : Error}
    (hbody : Acceptable ⟨ctx, natives, method.body.frameSlots⟩ method.body.code.length
      method.body.code)
    (h : (compileMethod ctx natives alloc id method).2 = .error e) :
    Hinders ⟨ctx, natives, method.body.frameSlots⟩ method.body.code e ∨
      2 ^ 32 ≤ method.body.code.length := by
  rcases Nat.lt_or_ge method.body.code.length (2 ^ 32) with hlabels | hlong
  · refine .inl ?_
    cases hempty : method.body.code.isEmpty with
    | true =>
        simp only [compileMethod, assembleMethod, hempty, if_true] at h
        cases h
        exact .empty (List.isEmpty_iff.mp hempty)
    | false =>
        have hgives := hbody.gives_bodyPieces hlabels
        cases hpieces : bodyPieces ⟨ctx, natives, method.body.frameSlots⟩ method.body.code with
        | ok pieces =>
            rcases compileMethod_cases hempty hpieces hbody.branchesInside with
              ⟨cause, herror⟩ | ⟨result, hok⟩
            · cases herror.symm.trans h
              exact .memory cause
            · cases hok.symm.trans h
        | error e' =>
            obtain ⟨inst, hinst, hrefuses⟩ := hgives.of_error hpieces
            simp only [compileMethod, assembleMethod, hempty, Bool.false_eq_true, if_false, bind,
              Except.bind, hpieces] at h
            cases h
            exact .refused hinst hrefuses
  · exact .inr hlong

end Methods

end SlotJit.Codegen

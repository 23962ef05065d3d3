import SlotJit.Proofs.Codegen.Operands

/-!
# What templates give

Each template is gone through once, to see what code it gives and why it gives none. `Gives Q P`
says of a computation that it gives something with the property `P`, or fails with an error that is
among `Q`. The lemmas on templates hold for every `Q`: each operand can be loaded, or `Q` has the
error for an instruction that makes no sense; each slot is near, or `Q` has the error for slots that
are not. What a template asks for in this way is `Suits`. If all errors are among `Q`, it asks for
nothing.

Code is `Plain` if it is instructions alone. A jump is a jump to the label of its target. A call of
a compiled method has one load of a code address, with the jump there behind it. All other code
binds the labels that were set aside for it, each once and in order, jumps to no others and loads no
code address (`Enclosed`).

## Main results

* `gives_template`: the shape of the code, for every kind of instruction.
* `template_shape`: the same, whatever the operands of the instruction.
-/

namespace SlotJit.Codegen

open SlotJit.Ir SlotJit.Machine SlotJit.Tables SlotJit.X64

/-! ### Computations that fail for known reasons -/

/-- A computation gives something that has a property, or fails with an error of a kind. -/
def Gives {α : Type} (Q : Error → Prop) (P : α → Prop) : Except Error α → Prop
  | .ok a => P a
  | .error e => Q e

namespace Gives

variable {α β : Type} {P P' : α → Prop} {R : β → Prop} {Q Q' : Error → Prop} {x : Except Error α}
  {f : α → Except Error β}

/-- What follows is given something that has the property. -/
theorem bind (hx : Gives Q P x) (hf : ∀ a, P a → Gives Q R (f a)) : Gives Q R (x >>= f) := by
  cases x with
  | ok a => exact hf a hx
  | error e => exact hx

/-- A computation gives no more than it is known to give, and fails for more reasons. -/
theorem mono (h : Gives Q P x) (hQ : ∀ e, Q e → Q' e) (hP : ∀ a, P a → P' a) : Gives Q' P' x := by
  cases x with
  | ok a => exact hP a h
  | error e => exact hQ e h

/-- What is given is the result. -/
theorem self (h : Gives Q P x) : Gives Q (fun a => x = .ok a ∧ P a) x := by
  cases x with
  | ok a => exact ⟨rfl, h⟩
  | error e => exact h

/-- A result has the property. -/
theorem of_ok (h : Gives Q P x) {a : α} (hx : x = .ok a) : P a := by
  rw [hx] at h
  exact h

/-- An error is of the kind. -/
theorem of_error (h : Gives Q P x) {e : Error} (hx : x = .error e) : Q e := by
  rw [hx] at h
  exact h

/-- A computation that fails for no reason succeeds. -/
theorem exists_ok (h : Gives (fun _ => False) P x) : ∃ a, x = .ok a ∧ P a := by
  cases x with
  | ok a => exact ⟨a, rfl, h⟩
  | error e => exact h.elim

end Gives

/-! ### Operands in reach -/

/-- Frames have fewer slots than this. -/
def slotBound : Nat := 2 ^ 18

section Operands

variable (Q : Error → Prop) (inst : Inst)

/-- A slot is not far away, or may be refused. -/
def InReach (index : Nat) : Prop := index < slotBound ∨ Q .slotOverflow

/-- An operand that can be loaded: a constant, or a slot in reach. An instruction with any other may
be refused. -/
def Accepts : Operand → Prop
  | .slot index => InReach Q index
  | .int _ | .float _ | .double _ => True
  | _ => Q (.cannotAssemble inst)

/-- An operand that has a place in integer instructions. -/
def AcceptsIntegral : Operand → Prop
  | .slot index => InReach Q index
  | .int _ => True
  | _ => Q (.cannotAssemble inst)

/-- The result of an instruction goes to a slot in reach, or the instruction may be refused. -/
def Targets : Prop :=
  match inst.dst with
  | some (.slot index) => InReach Q index
  | _ => Q (.cannotAssemble inst)

/-- An instruction has operands that can be loaded, or may be refused for one that is missing. -/
def Provides (count : Nat) : Prop :=
  ∀ place < count,
    match inst.args[place]? with
    | some a => Accepts Q inst a
    | none => Q (.cannotAssemble inst)

/-- What a call has to fit: it has as many arguments as the method has parameters or may be refused,
they can be passed, and there is a place for a result. -/
structure CallFits (callee : Method) : Prop where
  count : (inst.args.drop 1).length ≠ callee.signature.paramTypes.length → Q (.cannotAssemble inst)
  near : (inst.args.drop 1).length = callee.signature.paramTypes.length →
    ∀ index ∈ callee.signature.paramLocals, InReach Q index
  args : ∀ a ∈ inst.args.drop 1, Accepts Q inst a
  result : ∀ ty, callee.signature.resultType = some ty → Targets Q inst

end Operands

/-- Why the template of an instruction that lowering emits is refused. A native method can be called
with no more arguments than there are registers for, and with none of a floating point type; it has
to be bound to a host function. -/
inductive Refuses (site : Site) (inst : Inst) : Error → Prop
  | tooManyArguments {callee : Method} (hkind : inst.kind = .callNative)
      (hcallee : calleeOf site inst = .ok callee)
      (hmany : argumentRegs.length < callee.signature.paramTypes.length) :
      Refuses site inst (.unsupportedCall (site.context.qualifiedName callee.id) .tooManyArguments)
  | floatingPoint {callee : Method} (hkind : inst.kind = .callNative)
      (hcallee : calleeOf site inst = .ok callee)
      (hfloating : callee.signature.paramTypes.any ValueType.isFloating = true ∨
        callee.signature.resultType.any ValueType.isFloating = true) :
      Refuses site inst (.unsupportedCall (site.context.qualifiedName callee.id) .floatingPoint)
  | unbound {callee : Method} (hkind : inst.kind = .callNative)
      (hcallee : calleeOf site inst = .ok callee)
      (hnone : site.natives (site.context.qualifiedName callee.id) = none) :
      Refuses site inst (.unregisteredNative (site.context.qualifiedName callee.id))

/-- What the template of an instruction asks for, or may be refused without. -/
def Suits (Q : Error → Prop) (site : Site) (inst : Inst) : Prop :=
  match inst.kind with
  | .move _ | .neg _ | .floatNeg _ | .convert _ | .newIntArray | .arrayLen =>
    Provides Q inst 1 ∧ Targets Q inst
  | .arith _ op => Provides Q inst 2 ∧ Targets Q inst ∧
    (op.isShift = false → ∀ b, inst.args[1]? = some b → AcceptsIntegral Q inst b)
  | .floatArith .. | .intArrayGet => Provides Q inst 2 ∧ Targets Q inst
  | .compare _ => Provides Q inst 2
  | .jump => (inst.args.head?.bind branchLabel?).isSome = true ∨ Q (.cannotAssemble inst)
  | .jumpIf _ => (inst.args.head?.bind branchLabel?).isSome = true ∧ inst.args[1]? = some .flags ∨
    Q (.cannotAssemble inst)
  | .callStatic => Gives Q (CallFits Q inst) (calleeOf site inst) ∧ InReach Q site.frameSlots
  | .callNative => Gives Q (CallFits Q inst) (calleeOf site inst) ∧ ∀ e, Refuses site inst e → Q e
  | .ret ty => Provides Q inst ty.toList.length
  | .intArraySet => Provides Q inst 3

section AllErrors

variable {Q : Error → Prop} {site : Site} {inst : Inst} (hQ : ∀ e, Q e)
include hQ

/-- Nothing is asked for where every error is allowed. -/
theorem accepts_of_forall (a : Operand) : Accepts Q inst a := by
  cases a with
  | slot => exact .inr (hQ _)
  | int | float | double => trivial
  | branch | flags | symbol => exact hQ _

/-- Nothing is asked of an operand of integer arithmetic then. -/
theorem acceptsIntegral_of_forall (a : Operand) : AcceptsIntegral Q inst a := by
  cases a with
  | slot => exact .inr (hQ _)
  | int => trivial
  | branch | flags | float | double | symbol => exact hQ _

/-- Nothing is asked of a result then. -/
theorem targets_of_forall : Targets Q inst := by
  unfold Targets
  split
  · exact .inr (hQ _)
  · exact hQ _

/-- No operands are asked for then. -/
theorem provides_of_forall (count : Nat) : Provides Q inst count := by
  intro place _
  split
  · exact accepts_of_forall hQ _
  · exact hQ _

/-- Nothing is asked of a call then. -/
theorem callFits_of_forall (callee : Method) : CallFits Q inst callee :=
  ⟨fun _ => hQ _, fun _ _ _ => .inr (hQ _), fun a _ => accepts_of_forall hQ a,
    fun _ _ => targets_of_forall hQ⟩

/-- Any instruction will do where every error is allowed. -/
theorem suits_of_forall : Suits Q site inst := by
  have hcallee : Gives Q (CallFits Q inst) (calleeOf site inst) := by
    cases calleeOf site inst with
    | ok callee => exact callFits_of_forall hQ callee
    | error e => exact hQ e
  unfold Suits
  cases inst.kind with
  | move | neg | floatNeg | convert | newIntArray | arrayLen | floatArith | intArrayGet =>
      exact ⟨provides_of_forall hQ _, targets_of_forall hQ⟩
  | arith =>
      exact ⟨provides_of_forall hQ 2, targets_of_forall hQ,
        fun _ b _ => acceptsIntegral_of_forall hQ b⟩
  | compare | ret | intArraySet => exact provides_of_forall hQ _
  | jump | jumpIf => exact .inr (hQ _)
  | callStatic => exact ⟨hcallee, .inr (hQ _)⟩
  | callNative => exact ⟨hcallee, fun e _ => hQ e⟩

end AllErrors

/-! ### Straight code -/

/-- Code of instructions alone, without labels and jumps. -/
def Plain (code : List Piece) : Prop := ∃ instrs : List Instr, code = instrs.map .instr

/-- Instructions alone are straight code. -/
theorem plain_instrs (instrs : List Instr) : Plain (instrs.map .instr) := ⟨instrs, rfl⟩

/-- Straight code after straight code is straight. -/
theorem Plain.append {code code' : List Piece} (h : Plain code) (h' : Plain code') :
    Plain (code ++ code') := by
  obtain ⟨is, rfl⟩ := h
  obtain ⟨js, rfl⟩ := h'
  exact ⟨is ++ js, List.map_append.symm⟩

section Operands

variable {Q : Error → Prop} {inst : Inst} {a : Operand} {ty : ValueType} {count index place : Nat}

/-- A number that is not negative and fits is a displacement. -/
theorem gives_displacement {n : Int} (h : 0 ≤ n ∧ n < 0x80000000 ∨ Q .slotOverflow) :
    Gives Q (fun disp => disp.toInt = n) (displacement n) := by
  unfold displacement
  split
  · exact Int32.toInt_ofInt_of_le (by omega) (by omega)
  · exact h.resolve_left (by omega)

/-- A displacement is the number it was made from. -/
theorem toInt_of_displacement {n : Int} {disp : Int32} (h : displacement n = .ok disp) :
    disp.toInt = n :=
  (gives_displacement (Q := fun _ => True) (.inr trivial)).of_ok h

/-- The offset of a slot in reach. -/
theorem gives_slotDisp (h : InReach Q index) :
    Gives Q (fun disp : Int32 => index < slotBound → disp.toInt = 16 * index) (slotDisp index) := by
  have hsize : slotSize.toInt = 16 := by decide
  have hvalue : index < slotBound → (Int32.ofNat index).toInt = index := fun hindex =>
    Int32.toInt_ofNat_of_lt (by unfold slotBound at hindex; omega)
  refine (gives_displacement ?_).mono (fun _ he => he) fun disp hdisp hindex => ?_
  · refine h.imp_left fun hindex => ?_
    rw [hvalue hindex, hsize]
    unfold slotBound at hindex
    omega
  · rw [hdisp, hvalue hindex, hsize]
    omega

/-- An operand that is provided can be loaded. -/
theorem gives_argument (h : Provides Q inst count) (hplace : place < count) :
    Gives Q (fun a => inst.args[place]? = some a ∧ Accepts Q inst a) (argument inst place) := by
  have hthere := h place hplace
  unfold argument
  split
  · rename_i a ha
    rw [ha] at hthere
    exact ⟨ha, hthere⟩
  · rename_i hnone
    rw [hnone] at hthere
    exact hthere

/-- The destination of a result is in reach. -/
theorem gives_dstSlot (h : Targets Q inst) : Gives Q (InReach Q) (dstSlot inst) := by
  unfold Targets at h
  unfold dstSlot
  split
  · rename_i index hdst
    rw [hdst] at h
    exact h
  · rename_i hother
    split at h
    · exact (hother _ ‹_›).elim
    · exact h

/-- Loading an operand. -/
theorem gives_load {reg : Reg} (ha : Accepts Q inst a) : Gives Q Plain (load inst ty reg a) := by
  cases a with
  | slot index => exact (gives_slotDisp ha).bind fun _ _ => plain_instrs [_]
  | int | float | double => exact plain_instrs [_]
  | branch | flags | symbol => exact ha

/-- Storing a result. -/
theorem gives_store {reg : Reg} (h : Targets Q inst) : Gives Q Plain (store inst ty reg) :=
  (gives_dstSlot h).bind fun _ hindex => (gives_slotDisp hindex).bind fun _ _ => plain_instrs [_]

/-- Copying an operand, which may go through a register. -/
theorem gives_copyTo {disp : Int32} (ha : Accepts Q inst a) :
    Gives Q Plain (copyTo inst ty a disp) := by
  cases a with
  | slot index => exact (gives_slotDisp ha).bind fun _ _ => plain_instrs [_, _]
  | int bits | float bits | double bits =>
      refine Gives.bind (P := fun _ => True) trivial fun bits _ => ?_
      split
      · exact plain_instrs [_]
      · exact plain_instrs [_]
      · exact plain_instrs [_, _]
  | branch | flags | symbol => exact ha

/-- Loading a floating point operand. -/
theorem gives_loadXmm {ty : Floating} {xmm : Xmm} (ha : Accepts Q inst a) :
    Gives Q Plain (loadXmm inst ty xmm a) := by
  cases a with
  | slot index => exact (gives_slotDisp ha).bind fun _ _ => plain_instrs [_]
  | _ => exact (gives_load ha).bind fun _ hload => hload.append (plain_instrs [_])

/-- Storing a floating point result. -/
theorem gives_storeXmm {ty : Floating} {xmm : Xmm} (h : Targets Q inst) :
    Gives Q Plain (storeXmm inst ty xmm) :=
  (gives_dstSlot h).bind fun _ hindex => (gives_slotDisp hindex).bind fun _ _ => plain_instrs [_]

/-- An operation on a second operand. -/
theorem gives_aluOperand {op : AluOp} {size : Size} (ha : AcceptsIntegral Q inst a) :
    Gives Q Plain (aluOperand inst op size a) := by
  cases a with
  | slot index => exact (gives_slotDisp ha).bind fun _ _ => plain_instrs [_]
  | int value =>
      simp only [aluOperand]
      split
      · exact plain_instrs [_]
      · exact plain_instrs [_, _]
  | branch | flags | float | double | symbol => exact ha

end Operands

/-! ### Straight templates -/

section Straight

variable {Q : Error → Prop} {inst : Inst} {ty : ValueType}

/-- The template of a move. -/
theorem gives_move (h : Provides Q inst 1) (hdst : Targets Q inst) :
    Gives Q Plain (moveTemplate inst ty) := by
  refine (gives_dstSlot hdst).bind fun index hindex =>
    (gives_argument h (by decide)).bind fun a ha => ?_
  split
  · exact plain_instrs []
  · exact (gives_slotDisp hindex).bind fun _ _ => gives_copyTo ha.2

/-- Arithmetic with a memory form, in place or not. -/
theorem gives_alu {op : AluOp} (h : Provides Q inst 2) (hdst : Targets Q inst)
    (hsecond : ∀ b, inst.args[1]? = some b → AcceptsIntegral Q inst b) :
    Gives Q Plain (aluTemplate inst op ty) := by
  refine (gives_dstSlot hdst).bind fun index hindex =>
    (gives_argument h (by decide)).bind fun a ha =>
    (gives_argument h (by decide)).bind fun b hb => ?_
  have hgeneral : Gives Q Plain (do
      return (← load inst ty .rax a) ++ (← aluOperand inst op (sizeOf ty) b) ++
        (← store inst ty .rax)
      : Code) :=
    (gives_load ha.2).bind fun _ hload => (gives_aluOperand (hsecond b hb.1)).bind fun _ hoperate =>
      (gives_store hdst).bind fun _ hstore => (hload.append hoperate).append hstore
  dsimp only
  split
  · split
    · split
      · exact (gives_slotDisp hindex).bind fun _ _ => plain_instrs [_]
      · exact hgeneral
    · exact (gives_slotDisp hb.2).bind fun _ _ =>
        (gives_slotDisp hindex).bind fun _ _ => plain_instrs [_, _]
    · exact hgeneral
  · exact hgeneral

/-- Multiplication, from memory or from a register. -/
theorem gives_mul (h : Provides Q inst 2) (hdst : Targets Q inst) :
    Gives Q Plain (mulTemplate inst ty) := by
  refine (gives_argument h (by decide)).bind fun a ha =>
    (gives_argument h (by decide)).bind fun b hb =>
    (gives_load ha.2).bind fun _ hload => ?_
  dsimp only
  split
  · exact (gives_slotDisp hb.2).bind fun _ _ => (gives_store hdst).bind fun _ hstore =>
      (hload.append (plain_instrs [_])).append hstore
  · exact (gives_load hb.2).bind fun _ hright => (gives_store hdst).bind fun _ hstore =>
      (hload.append (hright.append (plain_instrs [_]))).append hstore

/-- Code that loads an operand, computes and stores. -/
theorem gives_compute {source target : ValueType} {compute : List Piece} (h : Provides Q inst 1)
    (hdst : Targets Q inst) (hcompute : Plain compute) : Gives Q Plain (do
      let a ← argument inst 0
      return (← load inst source .rax a) ++ compute ++ (← store inst target .rax) : Code) :=
  (gives_argument h (by decide)).bind fun _ ha => (gives_load ha.2).bind fun _ hload =>
    (gives_store hdst).bind fun _ hstore => (hload.append hcompute).append hstore

/-- The template of a shift. -/
theorem gives_shift {op : ShiftOp} (h : Provides Q inst 2) (hdst : Targets Q inst) :
    Gives Q Plain (shiftTemplate inst op ty) :=
  (gives_argument h (by decide)).bind fun _ ha => (gives_argument h (by decide)).bind fun _ hb =>
    (gives_load hb.2).bind fun _ hright => (gives_load ha.2).bind fun _ hleft =>
    (gives_store hdst).bind fun _ hstore =>
      ((hright.append hleft).append (plain_instrs [_])).append hstore

/-- Floating point arithmetic. -/
theorem gives_floatArith {floating : Floating} {op : SseOp} (h : Provides Q inst 2)
    (hdst : Targets Q inst) : Gives Q Plain (floatArithTemplate inst floating op) := by
  refine (gives_argument h (by decide)).bind fun a ha =>
    (gives_argument h (by decide)).bind fun b hb =>
    (gives_loadXmm ha.2).bind fun _ hload => ?_
  dsimp only
  split
  · exact (gives_slotDisp hb.2).bind fun _ _ => (gives_storeXmm hdst).bind fun _ hstore =>
      (hload.append (plain_instrs [_])).append hstore
  · exact (gives_loadXmm hb.2).bind fun _ hright => (gives_storeXmm hdst).bind fun _ hstore =>
      (hload.append (hright.append (plain_instrs [_]))).append hstore

/-- Floating point negation. -/
theorem gives_floatNeg {floating : Floating} (h : Provides Q inst 1) (hdst : Targets Q inst) :
    Gives Q Plain (floatNegTemplate inst floating) := by
  cases floating with
  | float => exact gives_compute h hdst (plain_instrs [_])
  | double => exact gives_compute h hdst (plain_instrs [_, _])

/-- The template of a compare. -/
theorem gives_compare (h : Provides Q inst 2) : Gives Q Plain (compareTemplate inst ty) := by
  refine (gives_argument h (by decide)).bind fun a ha =>
    (gives_argument h (by decide)).bind fun b hb =>
    (gives_load ha.2).bind fun left hload => ?_
  cases b with
  | slot index => exact (gives_slotDisp hb.2).bind fun _ _ => hload.append (plain_instrs [_])
  | int | float | double =>
      refine Gives.bind (P := fun _ => True) trivial fun bits _ => ?_
      split
      · exact hload.append (plain_instrs [_])
      · exact hload.append (plain_instrs [_, _])
  | branch | flags | symbol => exact hb.2

/-- The template of a return. -/
theorem gives_return {ty : Option ValueType} (h : Provides Q inst ty.toList.length) :
    Gives Q Plain (returnTemplate inst ty) := by
  cases ty with
  | none => exact plain_instrs [_]
  | some ty =>
      exact (gives_argument h Nat.zero_lt_one).bind fun _ ha =>
        (gives_load ha.2).bind fun _ hload =>
        hload.append (plain_instrs [_])

end Straight

/-! ### Calls -/

section Calls

variable {Q : Error → Prop} {site : Site} {inst : Inst} {callee : Method} {code : List Piece}

/-- Storing the result of a call. -/
theorem CallFits.gives_storeResult (h : CallFits Q inst callee) :
    Gives Q Plain (storeResult inst callee) := by
  unfold storeResult
  split
  · exact gives_store (h.result _ ‹_›)
  · exact plain_instrs []

/-- Code that copies arguments to slots in reach of a frame that is not far away. -/
theorem gives_passArguments {outgoing : Int32} {passed : List (Operand × ValueType × Nat)}
    (hout : 0 ≤ outgoing.toInt ∧ outgoing.toInt < 2 ^ 30 ∨ Q .slotOverflow)
    (h : ∀ x ∈ passed, Accepts Q inst x.1 ∧ InReach Q x.2.2) :
    Gives Q Plain (passArguments inst outgoing passed) := by
  induction passed with
  | nil => exact plain_instrs []
  | cons first rest ih =>
      obtain ⟨a, ty, index⟩ := first
      obtain ⟨ha, hindex⟩ := h _ List.mem_cons_self
      refine (gives_slotDisp hindex).bind fun disp hdisp => (gives_displacement ?_).bind fun _ _ =>
        (gives_copyTo ha).bind fun _ hcopied =>
        (ih fun x hx => h x (List.mem_cons_of_mem _ hx)).bind fun _ hothers =>
          hcopied.append hothers
      rcases hout with hout | hrefused
      · refine hindex.imp_left fun hindex => ?_
        have hvalue := hdisp hindex
        unfold slotBound at hindex
        dsimp only at hvalue hindex
        omega
      · exact .inr hrefused

/-- Code that loads arguments into registers. -/
theorem gives_loadArguments {loads : List (Reg × ValueType × Operand)}
    (h : ∀ x ∈ loads, Accepts Q inst x.2.2) : Gives Q Plain (loadArguments inst loads) := by
  induction loads with
  | nil => exact plain_instrs []
  | cons first rest ih =>
      exact (gives_load (h _ List.mem_cons_self)).bind fun _ hload =>
        (ih fun x hx => h x (List.mem_cons_of_mem _ hx)).bind fun _ hothers => hload.append hothers

/-- Code that copies arguments is straight, wherever they are. -/
theorem plain_passArguments {outgoing : Int32} {passed : List (Operand × ValueType × Nat)}
    (h : passArguments inst outgoing passed = .ok code) : Plain code :=
  (gives_passArguments (Q := fun _ => True) (.inr trivial)
    fun x _ => ⟨accepts_of_forall (fun _ => trivial) x.1, .inr trivial⟩).of_ok h

/-- Code that stores a result is straight, wherever it goes. -/
theorem plain_storeResult (h : storeResult inst callee = .ok code) : Plain code :=
  (callFits_of_forall (Q := fun _ => True) (fun _ => trivial) callee).gives_storeResult.of_ok h

/-- Code of a call of a compiled method: straight code but for the load of the address of its code,
with the jump there behind it. -/
structure Calls (callee : SymbolId) (before after code : List Piece) : Prop where
  code : code = before ++ .loadCode callee :: .instr (.jmpReg .rax) :: after
  before : Plain before
  after : Plain after

/-- A call of a compiled method that fits it. -/
theorem gives_callStatic (hcallee : Gives Q (CallFits Q inst) (calleeOf site inst))
    (hframe : InReach Q site.frameSlots) :
    Gives Q (fun code => ∃ callee before after, calleeOf site inst = .ok callee ∧
      Calls callee.id before after code) (callStaticTemplate site inst) := by
  refine hcallee.self.bind fun callee ⟨hfound, h⟩ => ?_
  dsimp only
  split
  · exact h.count ‹_›
  · rename_i hcount
    have hsize : slotSize.toInt = 16 := by decide
    refine (gives_slotDisp hframe).bind fun frame hdisp =>
      (gives_displacement ?_).bind fun outgoing hout =>
      (gives_passArguments ?_ ?_).bind fun passed hpassed =>
      h.gives_storeResult.bind fun result hresult => ?_
    · refine hframe.imp_left fun hframe => ?_
      have hvalue := hdisp hframe
      unfold slotBound at hframe
      omega
    · refine hframe.imp_left fun hframe => ?_
      have hvalue := hdisp hframe
      unfold slotBound at hframe
      omega
    · rintro ⟨a, ty, index⟩ hzip
      obtain ⟨harg, hlocal⟩ := List.of_mem_zip hzip
      exact ⟨h.args a harg, h.near (not_not.mp hcount) index (List.of_mem_zip hlocal).2⟩
    · have hbefore := hpassed.append (plain_instrs
        [.aluImm .add .qword frameReg outgoing, .leaRip .rax 16,
          .store .qword (frameMem (-slotSize)) .rax])
      have hafter := (plain_instrs [.aluImm .sub .qword frameReg outgoing]).append hresult
      exact ⟨callee, _, _, hfound, by simp, hbefore, hafter⟩

/-- Arguments are put in another order, and none is added. -/
theorem mem_loadOrder {α : Type} {x : α} {xs : List α} (h : x ∈ loadOrder xs) : x ∈ xs := by
  match xs with
  | [] | [_] => exact h
  | first :: second :: rest =>
      simp only [loadOrder, List.mem_append, List.mem_cons] at h ⊢
      tauto

/-- Extending a narrow result. -/
theorem plain_extendResult (result : Option FieldType) : Plain (extendResult result) := by
  unfold extendResult
  split
  · exact plain_instrs [_]
  · exact plain_instrs [_]
  · exact plain_instrs [_]
  · exact plain_instrs [_]
  · exact plain_instrs []

/-- Calling a host function. -/
theorem plain_callHost (address : UInt64) : Plain (callHost address) := plain_instrs [_, _, _]

/-- A call of a native method fails for the reasons there are to refuse one. -/
theorem gives_callNative (hkind : inst.kind = .callNative)
    (hcallee : Gives Q (CallFits Q inst) (calleeOf site inst))
    (hrefuses : ∀ e, Refuses site inst e → Q e) : Gives Q Plain (callNativeTemplate site inst) := by
  refine hcallee.self.bind fun callee ⟨hfound, h⟩ => ?_
  dsimp only
  split
  · exact hrefuses _ (.tooManyArguments hkind hfound ‹_›)
  split
  · rename_i hfloating
    exact hrefuses _ (.floatingPoint hkind hfound (by simpa using hfloating))
  split
  · rename_i address _
    split
    · exact h.count ‹_›
    · refine (gives_loadArguments ?_).bind fun _ hloads => h.gives_storeResult.bind fun _ hresult =>
        ((((plain_instrs [_]).append hloads).append (plain_callHost address)).append
          (plain_extendResult _)).append hresult
      rintro ⟨reg, ty, a⟩ hload
      exact h.args a (List.of_mem_zip (List.of_mem_zip (mem_loadOrder hload)).2).2
  · rename_i hunbound
    exact hrefuses _ (.unbound hkind hfound (Option.eq_none_iff_forall_ne_some.mpr hunbound))

end Calls

/-! ### Labels and loads of pieces -/

namespace Piece

/-- The label that a piece binds. -/
@[simp] def bound? : Piece → Option Nat
  | label id => some id
  | _ => none

/-- The label that a piece jumps to. -/
@[simp] def named? : Piece → Option Nat
  | jump _ target => some target
  | _ => none

/-- The method whose code address a piece loads. -/
@[simp] def callee? : Piece → Option SymbolId
  | loadCode callee => some callee
  | _ => none

end Piece

namespace Plain

variable {code : List Piece}

/-- Straight code binds no label. -/
theorem bound (h : Plain code) : code.filterMap Piece.bound? = [] := by
  obtain ⟨instrs, rfl⟩ := h
  simp [List.filterMap_map, Function.comp_def]

/-- Straight code jumps nowhere. -/
theorem named (h : Plain code) : code.filterMap Piece.named? = [] := by
  obtain ⟨instrs, rfl⟩ := h
  simp [List.filterMap_map, Function.comp_def]

/-- Straight code loads no code address. -/
theorem callees (h : Plain code) : code.filterMap Piece.callee? = [] := by
  obtain ⟨instrs, rfl⟩ := h
  simp [List.filterMap_map, Function.comp_def]

end Plain

/-- Code that keeps to itself: it binds as many labels as it was given, the first one and those
after it, jumps to no other label and loads no code address. -/
structure Enclosed (fresh count : Nat) (code : List Piece) : Prop where
  bound : code.filterMap Piece.bound? = List.range' fresh count
  named : ∀ l ∈ code.filterMap Piece.named?, fresh ≤ l ∧ l < fresh + count
  callees : code.filterMap Piece.callee? = []

/-- Straight code needs no labels. -/
theorem Plain.enclosed {code : List Piece} (h : Plain code) (fresh : Nat) : Enclosed fresh 0 code :=
  ⟨h.bound, by simp [h.named], h.callees⟩

namespace Enclosed

variable {fresh count : Nat} {code : List Piece}

/-- Code without labels that keeps to itself is straight. -/
theorem plain (h : Enclosed fresh 0 code) : Plain code := by
  obtain ⟨hbound, hnamed, hcallees⟩ := h
  induction code with
  | nil => exact plain_instrs []
  | cons p rest ih =>
      cases p with
      | instr i => exact (plain_instrs [i]).append (ih hbound hnamed hcallees)
      | jump cond target =>
          have := hnamed target List.mem_cons_self
          omega
      | label id => cases hbound
      | loadCode callee => cases hcallees

/-- Straight code around code that keeps to itself. -/
theorem surround {before after : List Piece} (hbefore : Plain before)
    (h : Enclosed fresh count code) (hafter : Plain after) :
    Enclosed fresh count (before ++ code ++ after) := by
  constructor
  · rw [List.filterMap_append, List.filterMap_append, hbefore.bound, hafter.bound, List.append_nil,
      List.nil_append, h.bound]
  · rw [List.filterMap_append, List.filterMap_append, hbefore.named, hafter.named, List.append_nil,
      List.nil_append]
    exact h.named
  · rw [List.filterMap_append, List.filterMap_append, hbefore.callees, hafter.callees,
      List.append_nil, List.nil_append, h.callees]

end Enclosed

namespace Calls

variable {callee : SymbolId} {before after code : List Piece}

/-- A call binds no label. -/
theorem bound (h : Calls callee before after code) : code.filterMap Piece.bound? = [] := by
  rw [h.code, List.filterMap_append, h.before.bound]
  exact h.after.bound

/-- A call jumps to no label. -/
theorem named (h : Calls callee before after code) : code.filterMap Piece.named? = [] := by
  rw [h.code, List.filterMap_append, h.before.named]
  exact h.after.named

end Calls

/-! ### Templates with labels -/

section Labels

variable {Q : Error → Prop} {inst : Inst} {ty : ValueType} {fresh : Nat}

/-- Division has a path for minus one, and so two labels. -/
theorem gives_div {remainder : Bool} (h : Provides Q inst 2) (hdst : Targets Q inst) :
    Gives Q (Enclosed fresh 2) (divTemplate inst ty remainder fresh) := by
  refine (gives_argument h (by decide)).bind fun a ha =>
    (gives_argument h (by decide)).bind fun b hb =>
    (gives_load hb.2).bind fun divisor hdivisor => (gives_load ha.2).bind fun dividend hdividend =>
    (gives_store hdst).bind fun result hresult => ?_
  show Enclosed fresh 2 _
  rw [List.append_cons, List.append_assoc (divisor ++ dividend),
    List.append_assoc (divisor ++ dividend)]
  refine Enclosed.surround (hdivisor.append hdividend) ?_ hresult
  cases remainder with
  | false => exact ⟨rfl, fun l hl => by simp at hl; omega, rfl⟩
  | true => exact ⟨rfl, fun l hl => by simp at hl; omega, rfl⟩

/-- Conversion to an integer has paths for the values out of range. -/
theorem gives_toIntegral {floating : Floating} {target : Integral} (h : Provides Q inst 1)
    (hdst : Targets Q inst) :
    Gives Q (Enclosed fresh 2) (toIntegralTemplate inst floating target fresh) := by
  refine (gives_argument h (by decide)).bind fun a ha =>
    (gives_loadXmm ha.2).bind fun loaded hload =>
    (gives_store hdst).bind fun result hresult => ?_
  show Enclosed fresh 2 _
  rw [List.append_assoc loaded, List.append_assoc loaded]
  refine Enclosed.surround hload ?_ hresult
  cases target with
  | int => exact ⟨rfl, fun l hl => by simp at hl; omega, rfl⟩
  | long => exact ⟨rfl, fun l hl => by simp at hl; omega, rfl⟩

/-- Making an array traps on a negative length. -/
theorem gives_newIntArray (h : Provides Q inst 1) (hdst : Targets Q inst) :
    Gives Q (Enclosed fresh 1) (newIntArrayTemplate inst fresh) := by
  refine (gives_argument h (by decide)).bind fun a ha => (gives_load ha.2).bind fun loaded hload =>
    (gives_store hdst).bind fun result hresult => ?_
  refine Enclosed.surround (((plain_instrs [_, _]).append hload).append (plain_callHost _))
    ?_ hresult
  exact ⟨rfl, fun l hl => by simp at hl; omega, rfl⟩

/-- Code that finds an element and goes on with straight code. -/
theorem gives_arrayElement {array index : Operand} (harray : Accepts Q inst array)
    (hindex : Accepts Q inst index) :
    Gives Q (fun code => ∀ after, Plain after → Enclosed fresh 1 (code ++ after))
      (arrayElement inst array index fresh) := by
  refine (gives_load harray).bind fun left hleft => (gives_load hindex).bind fun right hright => ?_
  refine fun after hafter => Enclosed.surround (hleft.append hright) ?_ hafter
  exact ⟨rfl, fun l hl => by simp at hl; omega, rfl⟩

/-- Reading an element traps on an index out of range. -/
theorem gives_arrayGet (h : Provides Q inst 2) (hdst : Targets Q inst) :
    Gives Q (Enclosed fresh 1) (arrayGetTemplate inst fresh) := by
  refine (gives_argument h (by decide)).bind fun a ha =>
    (gives_argument h (by decide)).bind fun b hb =>
    (gives_arrayElement ha.2 hb.2).bind fun element helement =>
    (gives_store hdst).bind fun result hresult => ?_
  show Enclosed fresh 1 _
  rw [List.append_assoc]
  exact helement _ ((plain_instrs [_]).append hresult)

/-- Writing an element traps on such an index too. -/
theorem gives_arraySet (h : Provides Q inst 3) :
    Gives Q (Enclosed fresh 1) (arraySetTemplate inst fresh) := by
  refine (gives_argument h (by decide)).bind fun a ha =>
    (gives_argument h (by decide)).bind fun b hb =>
    (gives_argument h (by decide)).bind fun c hc =>
    (gives_arrayElement ha.2 hb.2).bind fun element helement =>
    (gives_load hc.2).bind fun value hvalue => ?_
  show Enclosed fresh 1 _
  rw [List.append_assoc]
  exact helement _ (hvalue.append (plain_instrs [_]))

end Labels

/-! ### All templates -/

section All

variable {Q : Error → Prop} {site : Site} {inst : Inst} {fresh : Nat} {code : List Piece}

/-- Straight code keeps to itself. -/
theorem Gives.enclosed {x : Code} (h : Gives Q Plain x) (fresh : Nat) :
    Gives Q (Enclosed fresh 0) x :=
  h.mono (fun _ he => he) fun _ hcode => hcode.enclosed fresh

/-- Arithmetic on integers, with labels for division only. -/
theorem gives_arith {kind : Integral} {op : IntOp} (h : Provides Q inst 2) (hdst : Targets Q inst)
    (hsecond : op.isShift = false → ∀ b, inst.args[1]? = some b → AcceptsIntegral Q inst b) :
    Gives Q (Enclosed fresh (labelCount (.arith kind op)))
      (arithTemplate inst kind.valueType fresh op) := by
  cases op with
  | add | sub | and | or | xor => exact (gives_alu h hdst (hsecond rfl)).enclosed fresh
  | mul => exact (gives_mul h hdst).enclosed fresh
  | shl | shr | ushr => exact (gives_shift h hdst).enclosed fresh
  | div | rem => exact gives_div h hdst

/-- A conversion, with labels if it is to an integer. -/
theorem gives_convert {conversion : Conversion} (h : Provides Q inst 1) (hdst : Targets Q inst) :
    Gives Q (Enclosed fresh (labelCount (.convert conversion)))
      (convertTemplate inst fresh conversion) := by
  cases conversion with
  | toIntegral => exact gives_toIntegral h hdst
  | widen | narrow => exact (gives_compute h hdst (plain_instrs [_])).enclosed fresh
  | wrap =>
      exact (gives_argument h (by decide)).bind fun _ ha => (gives_load ha.2).bind fun _ hload =>
        (gives_store hdst).bind fun _ hstore => (hload.append hstore).enclosed fresh
  | toFloating =>
      exact (gives_argument h (by decide)).bind fun _ ha => (gives_load ha.2).bind fun _ hload =>
        (gives_storeXmm hdst).bind fun _ hstore =>
          ((hload.append (plain_instrs [_])).append hstore).enclosed fresh
  | resize =>
      exact (gives_argument h (by decide)).bind fun _ ha => (gives_loadXmm ha.2).bind fun _ hload =>
        (gives_storeXmm hdst).bind fun _ hstore =>
          ((hload.append (plain_instrs [_])).append hstore).enclosed fresh

/-- A jump is one machine jump on its condition, to the label of the number it names. -/
theorem gives_jump {condition : Option Condition}
    (h : (inst.args.head?.bind branchLabel?).isSome = true ∧
      (condition.isSome = true → inst.args[1]? = some .flags) ∨ Q (.cannotAssemble inst)) :
    Gives Q (fun code => ∃ label, code = [.jump (condition.map condOf) label] ∧
      inst.args.head?.bind branchLabel? = some label) (jumpTemplate inst condition) := by
  unfold jumpTemplate
  split
  · rename_i hnone
    exact h.resolve_left fun h => by simp [hnone] at h
  · rename_i label hlabel
    cases condition with
    | none => exact ⟨label, rfl, hlabel⟩
    | some condition =>
        dsimp only
        split
        · exact ⟨label, rfl, hlabel⟩
        · rename_i hflags
          exact h.resolve_left fun h => hflags (h.2 rfl)

/-- The code of a jump, whatever its operands. -/
theorem code_of_jumpTemplate {condition : Option Condition}
    (h : jumpTemplate inst condition = .ok code) :
    ∃ label, code = [.jump (condition.map condOf) label] ∧
      inst.args.head?.bind branchLabel? = some label :=
  (gives_jump (Q := fun _ => True) (.inr trivial)).of_ok h

/-- The code of an instruction is a jump, or a call, or keeps to itself. -/
inductive Shaped (site : Site) (fresh : Nat) (inst : Inst) : List Piece → Prop
  | jump {cond : Option Cond} {label : Nat} (hkind : inst.kind.isJump = true)
      (hlabel : inst.args.head?.bind branchLabel? = some label) :
      Shaped site fresh inst [.jump cond label]
  | call {callee : Method} {before after code : List Piece} (hkind : inst.kind = .callStatic)
      (hcallee : calleeOf site inst = .ok callee) (hcode : Calls callee.id before after code) :
      Shaped site fresh inst code
  | enclosed {code : List Piece} (hjump : inst.kind.isJump = false)
      (hcall : inst.kind ≠ .callStatic)
      (hcode : Enclosed fresh (labelCount inst.kind) code) : Shaped site fresh inst code

/-- The template of an instruction that suits it. -/
theorem gives_template (h : Suits Q site inst) :
    Gives Q (Shaped site fresh inst) (template site fresh inst) := by
  have hjump : ∀ {condition : Option Condition} {x}, inst.kind.isJump = true →
      Gives Q (fun code => ∃ label, code = [.jump (condition.map condOf) label] ∧
        inst.args.head?.bind branchLabel? = some label) x → Gives Q (Shaped site fresh inst) x := by
    intro condition x hkind hx
    refine hx.mono (fun _ he => he) ?_
    rintro _ ⟨label, rfl, hlabel⟩
    exact .jump hkind hlabel
  have henclosed : ∀ {x}, inst.kind.isJump = false → inst.kind ≠ .callStatic →
      Gives Q (Enclosed fresh (labelCount inst.kind)) x → Gives Q (Shaped site fresh inst) x :=
    fun hjump hcall hx => hx.mono (fun _ he => he) fun _ hcode => .enclosed hjump hcall hcode
  unfold Suits at h
  unfold template
  cases hkind : inst.kind with
  | jump =>
      rw [hkind] at h hjump
      exact hjump rfl (gives_jump (h.imp_left fun h => ⟨h, nofun⟩))
  | jumpIf condition =>
      rw [hkind] at h hjump
      exact hjump rfl (gives_jump (h.imp_left fun h => ⟨h.1, fun _ => h.2⟩))
  | callStatic =>
      rw [hkind] at h
      refine (gives_callStatic h.1 h.2).mono (fun _ he => he) ?_
      rintro code ⟨callee, before, after, hcallee, hcode⟩
      exact .call hkind hcallee hcode
  | callNative =>
      rw [hkind] at h henclosed
      exact henclosed rfl nofun ((gives_callNative hkind h.1 h.2).enclosed fresh)
  | move ty =>
      rw [hkind] at h henclosed
      exact henclosed rfl nofun ((gives_move h.1 h.2).enclosed fresh)
  | arith ty op =>
      rw [hkind] at h henclosed
      exact henclosed rfl nofun (gives_arith h.1 h.2.1 h.2.2)
  | neg ty | arrayLen =>
      rw [hkind] at h henclosed
      exact henclosed rfl nofun ((gives_compute h.1 h.2 (plain_instrs [_])).enclosed fresh)
  | floatArith ty op =>
      rw [hkind] at h henclosed
      exact henclosed rfl nofun ((gives_floatArith h.1 h.2).enclosed fresh)
  | floatNeg ty =>
      rw [hkind] at h henclosed
      exact henclosed rfl nofun ((gives_floatNeg h.1 h.2).enclosed fresh)
  | convert conversion =>
      rw [hkind] at h henclosed
      exact henclosed rfl nofun (gives_convert h.1 h.2)
  | compare ty =>
      rw [hkind] at h henclosed
      exact henclosed rfl nofun ((gives_compare h).enclosed fresh)
  | ret ty =>
      rw [hkind] at h henclosed
      exact henclosed rfl nofun ((gives_return h).enclosed fresh)
  | newIntArray =>
      rw [hkind] at h henclosed
      exact henclosed rfl nofun (gives_newIntArray h.1 h.2)
  | intArrayGet =>
      rw [hkind] at h henclosed
      exact henclosed rfl nofun (gives_arrayGet h.1 h.2)
  | intArraySet =>
      rw [hkind] at h henclosed
      exact henclosed rfl nofun (gives_arraySet h)

/-- The shape of the code of an instruction, whatever its operands. -/
theorem template_shape (h : template site fresh inst = .ok code) : Shaped site fresh inst code :=
  (gives_template (Q := fun _ => True) (suits_of_forall fun _ => trivial)).of_ok h

end All

end SlotJit.Codegen

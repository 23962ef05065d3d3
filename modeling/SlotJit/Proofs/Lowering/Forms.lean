import SlotJit.Proofs.Lowering.Correctness
import SlotJit.Proofs.Lowering.Footprint

/-!
# The form of lowered code

A slot instruction can be put together from any kind and any operands, and code generation refuses
what makes no sense. Lowering emits sensible instructions only: the operands have the types that the
kind asks for, a result goes to a slot if there is one, a call names a method that can be found and
has an argument for each of its parameters, and a branch goes to an instruction of the body or to
its end.

## Main results

* `Emitted.From.formed`: the instructions that are emitted for one of the bytecode.
* `formed_of_lower`: the instructions of a body.
-/

namespace SlotJit.Lowering

open SlotJit.Bytecode SlotJit.Ir SlotJit.Semantics SlotJit.Tables

variable {site : Site} {context : Context} {pc : Nat} {e : Entry} {ty : ValueType}

/-! ### Forms -/

/-- An operand stands for a value of a type: it is a slot, or a constant of that type. -/
def HasType : Operand → ValueType → Prop
  | .slot _, _ => True
  | .int _, .int | .int _, .long | .int _, .ref => True
  | .float _, .float => True
  | .double _, .double => True
  | _, _ => False

/-- A result goes to a slot, and where there is none it goes nowhere. -/
def Receives : Option Operand → Option ValueType → Prop
  | some (.slot _), some _ => True
  | none, none => True
  | _, _ => False

/-- The kind, destination and operands of an instruction other than a jump go together. The operands
of an operation were all on the stack at once, so they do not take many words. -/
inductive Formed (context : Context) : Kind → Option Operand → List Operand → Prop
  | move {ty : ValueType} {index : Nat} {src : Operand} (hsrc : HasType src ty) :
      Formed context (.move ty) (some (.slot index)) [src]
  | operation {kind : Kind} {dst : Option Operand} {args operands : List Operand} (op : Operation)
      (hop : operation? context kind args = some (op, operands))
      (hoperands : List.Forall₂ HasType operands op.params) (hdst : Receives dst op.result)
      (hwords : (op.params.map ValueType.words).sum < 2 ^ 16) : Formed context kind dst args
  | compare (ty : Comparand) {a b : Operand} (ha : HasType a ty.valueType)
      (hb : HasType b ty.valueType) : Formed context (.compare ty) none [a, b]
  | ret {ty : Option ValueType} {args : List Operand}
      (hargs : List.Forall₂ HasType args ty.toList) : Formed context (.ret ty) none args

theorem Formed.isJump {kind : Kind} {dst : Option Operand} {args : List Operand}
    (h : Formed context kind dst args) : kind.isJump = false := by
  cases h with
  | move | compare | ret => rfl
  | operation op hop =>
      cases kind with
      | jump | jumpIf => cases hop
      | _ => rfl

/-- An emitted instruction has the right form; branches have no other. -/
def Emitted.Formed (context : Context) : Emitted → Prop
  | .inst i => Lowering.Formed context i.kind i.dst i.args
  | .branch .. => True

/-- A jump to an index that is not beyond the end of the code. -/
def JumpsInside (stop : Nat) (kind : Kind) (args : List Operand) : Prop :=
  ∃ target : Nat, target ≤ stop ∧ (kind = .jump ∧ args = [.branch target] ∨
    ∃ condition, kind = .jumpIf condition ∧ args = [.branch target, .flags])

/-- The operand of an entry stands for a value of its type. -/
theorem hasType_of_operand? {a : Operand} (hty : e.valueType? = some ty)
    (ha : e.operand? site = some a) : HasType a ty := by
  cases e with
  | flags => cases ha
  | literal l => cases l <;> cases hty <;> cases ha <;> trivial
  | localVar | merge | tmp =>
      cases ha
      trivial

theorem Stands.hasType {a : Operand} (h : Stands site ty a) : HasType a ty := by
  obtain ⟨e, hty, ha⟩ := h
  exact hasType_of_operand? hty ha

/-- What an instruction emits has the right form. -/
theorem Emitted.Issued.formed {l : Located} {e : Emitted} (hctx : Positioned site.context)
    (h : e.Issued site l) : e.Formed site.context := by
  have hasTypes {types : List ValueType} {args : List Operand}
      (hargs : List.Forall₂ (Stands site) types args) : List.Forall₂ HasType args types :=
    hargs.flip.imp fun _ _ => Stands.hasType
  cases h with
  | spill h =>
      obtain ⟨ty, index, src, hsrc, rfl⟩ := h
      exact .move hsrc.hasType
  | store _ _ hsrc => exact .move hsrc.hasType
  | increment =>
      exact .operation (.arith .int .add) rfl (.cons trivial (.cons trivial .nil)) trivial
        (by decide)
  | @operation _ _ args op index hl hargs hwords =>
      refine .operation op (operation?_of_performs hctx hl args) (hasTypes hargs) ?_ ?_
      · cases op.result <;> trivial
      · exact Nat.lt_of_le_of_lt hwords site.maxStack.toNat_lt
  | compare _ ha hb => exact .compare _ ha.hasType hb.hasType
  | ret _ hargs => exact .ret (hasTypes hargs)

/-- So have the moves of a flush. -/
theorem Emitted.Shift.formed {e : Emitted} (h : e.Shift site) : e.Formed context := by
  rcases h with ⟨ty, index, src, hsrc, rfl⟩ | ⟨ty, depth, src, hsrc, rfl⟩
  · exact .move hsrc.hasType
  · exact .move hsrc.hasType

/-- All that lowering an instruction emits has the right form. -/
theorem Emitted.From.formed {l : Located} {e : Emitted} (hctx : Positioned site.context)
    (h : e.From site l) : e.Formed site.context := by
  cases h with
  | issued h => exact h.formed hctx
  | shift _ h => exact h.formed
  | branch h =>
      obtain ⟨_, _, -, rfl⟩ := h
      trivial

/-! ### Bodies -/

/-- The code of a position is not beyond the end. -/
theorem Lowers.position_le {r : Routine} {stream : Stream} {fin : State} {body : Body}
    (h : Lowers site r stream fin body) {index : Nat} (hindex : fin.positions[pc]? = some index) :
    index ≤ body.code.length := by
  have hadvances := advances_forM h.describes h.positioned (fun l hl => (h.sensible l hl).1)
    (holds_empty site) h.lowered
  have hmem : pc ∈ stream.instrs.map Located.pc := by
    by_contra hnot
    rw [hadvances.positions pc hnot] at hindex
    simp at hindex
  obtain ⟨l, hl, rfl⟩ := List.mem_map.mp hmem
  obtain ⟨rest, t, hboundary⟩ := boundary_of_mem h.describes h.positioned h.scanned.contiguous
    h.sensible (holds_empty site) h.positions_stop h.lowered hl
  have hplace := hboundary.place
  rw [State.place, hindex, Option.getD_some] at hplace
  rw [h.resolved.length, hplace, ← Array.length_toList]
  exact hboundary.code.length_le

/-- The instructions of a body have the right form, and its jumps stay inside. -/
theorem formed_of_lower {owner : ClassTable} {method : Method} {body : Body}
    (hctx : Positioned context) (h : lower context owner method = .ok body) :
    ∀ inst ∈ body.code, Formed context inst.kind inst.dst inst.args ∨
      JumpsInside body.code.length inst.kind inst.args := by
  obtain ⟨stream, fin, hlowers⟩ := lowers_of_lower hctx h
  obtain ⟨added, hcode, hadded⟩ := adds_forM (sound_empty _) (fun _ => Emitted.Shift.formed)
    (fun l _ e => Emitted.From.formed hctx) hlowers.lowered
  intro inst hinst
  obtain ⟨e, he, inst', marks, hresolve, rfl⟩ := hlowers.resolved.exists_of_mem hinst
  rw [hcode] at he
  have hformed := hadded e he
  cases e with
  | inst i =>
      cases hresolve
      exact .inl hformed
  | branch condition pc target =>
      obtain ⟨index, hindex, ⟨-, rfl⟩ | ⟨condition, -, rfl⟩⟩ := resolve_branch hresolve
      · exact .inr ⟨index, hlowers.position_le hindex, .inl ⟨rfl, rfl⟩⟩
      · exact .inr ⟨index, hlowers.position_le hindex, .inr ⟨condition, rfl, rfl⟩⟩

end SlotJit.Lowering

import SlotJit.Proofs.Lowering.Steps

/-!
# Steps of lowering that fail

Lowering fails where the bytecode is at fault, and then the error names the position of the
instruction. Two errors are of another kind: a temporary that is given back twice and a depth below
zero would be faults of lowering itself. `Fails x s e` says that the step `x` fails in the state `s`
with the error `e`; it is taken apart like `Yields`.

A step `Raises pc` if all its errors are about the instruction at `pc`, whatever state it is in.
What remains are the steps that pop an entry or give back a temporary; `fails_pop` and
`fails_releaseEntry` say when these end in a fault.
-/

namespace SlotJit.Lowering

open SlotJit.Bytecode SlotJit.Ir SlotJit.Tables

variable {α β : Type} {site : Site} {pc : Nat} {s t u : State} {e : Entry} {ty : ValueType}
  {error : Error}

/-- Whether lowering itself is to blame for an error, and not the bytecode. -/
def Error.isFault : Error → Bool
  | .releasedTwice | .depthUnderflow => true
  | _ => false

/-- The position of the instruction that an error is about. -/
def Error.position? : Error → Option Nat
  | .unsupportedOpcode pc _ | .stackUnderflow pc | .stackOverflow pc _ | .localOutOfRange pc _ _
  | .typeMismatch pc _ _ | .flagsAsValue pc | .flagsClobbered pc | .stackMismatch pc
  | .badConstant pc _ | .unresolvedMethod pc _ | .notStatic pc _ | .unsupportedArrayType pc _ =>
      some pc
  | .stream _ | .releasedTwice | .depthUnderflow => none

/-- An error about an instruction is no fault of lowering. -/
theorem Error.isFault_of_position (h : error.position? = some pc) : error.isFault = false := by
  cases error with
  | releasedTwice | depthUnderflow => cases h
  | _ => rfl

/-- A step of lowering fails with an error. -/
def Fails (x : Lower α) (s : State) (error : Error) : Prop := x.run s = .error error

/-! ### Plumbing -/

/-- A value alone does not fail. -/
@[simp] theorem fails_pure {a : α} : ¬ Fails (pure a) s error := nofun

/-- The first step fails, or the next one does. -/
@[simp] theorem fails_bind {x : Lower α} {f : α → Lower β} :
    Fails (x >>= f) s error ↔ Fails x s error ∨ ∃ a t, Yields x s a t ∧ Fails (f a) t error := by
  simp only [Fails, Yields, StateT.run_bind]
  cases hx : x.run s with
  | error e => simp [bind, Except.bind]
  | ok r =>
      obtain ⟨a, t⟩ := r
      simp [bind, Except.bind]

/-- A function of the result does not fail. -/
@[simp] theorem fails_map {x : Lower α} {f : α → β} : Fails (f <$> x) s error ↔
    Fails x s error := by
  rw [← bind_pure_comp, fails_bind]
  simp

/-- Dropping the result does not fail. -/
theorem fails_discard {x : Lower α} : Fails (discard x) s error ↔ Fails x s error := by
  rw [discard, map_const]
  simp

/-- A failure fails with its error. -/
@[simp] theorem fails_throw {e : Error} : Fails (throw e : Lower α) s error ↔ e = error := by
  show Except.error e = .error error ↔ _
  simp

/-- Reading the state does not fail. -/
@[simp] theorem fails_get_bind {f : State → Lower β} :
    Fails (get >>= f) s error ↔ Fails (f s) s error := Iff.rfl

/-- Setting the state does not fail. -/
@[simp] theorem fails_set : ¬ Fails (set u) s error := nofun

/-- Changing the state does not fail. -/
@[simp] theorem fails_modify {f : State → State} : ¬ Fails (modify f) s error := nofun

/-- Changing the state and answering does not fail. -/
@[simp] theorem fails_modifyGet {f : State → α × State} : ¬ Fails (modifyGet f) s error := nofun

/-- A choice fails as what is chosen does. -/
@[simp] theorem fails_ite {p : Prop} [Decidable p] {x y : Lower α} :
    Fails (if p then x else y) s error ↔ (p ∧ Fails x s error) ∨ (¬ p ∧ Fails y s error) := by
  by_cases h : p <;> simp [h]

/-- With nothing to do nothing fails. -/
@[simp] theorem fails_mapM_nil {f : α → Lower β} : ¬ Fails (List.mapM f []) s error := by
  rw [List.mapM_nil]
  exact fails_pure

/-- An element fails, or one of the others does. -/
theorem fails_mapM_cons {f : α → Lower β} {a : α} {as : List α} :
    Fails (List.mapM f (a :: as)) s error ↔
      Fails (f a) s error ∨ ∃ b t, Yields (f a) s b t ∧ Fails (List.mapM f as) t error := by
  simp only [List.mapM_cons, fails_bind, fails_pure, and_false, exists_false, or_false]

/-! ### Errors about one instruction -/

/-- A step fails, if at all, with an error about the instruction at a position. -/
def Raises (pc : Nat) (x : Lower α) : Prop := ∀ s error, Fails x s error → error.position? = some pc

/-- A step that never fails. -/
theorem raises_of_not_fails {x : Lower α} (h : ∀ s error, ¬ Fails x s error) : Raises pc x :=
  fun s error hfails => absurd hfails (h s error)

/-- A value alone raises nothing. -/
theorem raises_pure {a : α} : Raises pc (pure a) := raises_of_not_fails fun _ _ => fails_pure

/-- Setting the state raises nothing. -/
theorem raises_set : Raises pc (set t) := raises_of_not_fails fun _ _ => fails_set

/-- An error at a position is raised there. -/
theorem raises_throw (h : error.position? = some pc) : Raises pc (throw error : Lower α) :=
  fun _ _ hfails => fails_throw.mp hfails ▸ h

namespace Raises

/-- One step after the other. -/
theorem bind {x : Lower α} {f : α → Lower β} (hx : Raises pc x) (hf : ∀ a, Raises pc (f a)) :
    Raises pc (x >>= f) := by
  intro s error h
  rcases fails_bind.mp h with h | ⟨a, t, -, h⟩
  · exact hx s error h
  · exact hf a t error h

/-- A step that looks at the state first. -/
theorem get_bind {f : State → Lower β} (hf : ∀ s, Raises pc (f s)) : Raises pc (get >>= f) :=
  fun s error h => hf s s error (fails_get_bind.mp h)

/-- A choice raises what its cases raise. -/
theorem ite {p : Prop} [Decidable p] {x y : Lower α} (hx : Raises pc x) (hy : Raises pc y) :
    Raises pc (if p then x else y) := by
  split
  · exact hx
  · exact hy

/-- The same step for each element of a list. -/
theorem mapM {f : α → Lower β} (hf : ∀ a, Raises pc (f a)) (as : List α) :
    Raises pc (as.mapM f) := by
  induction as with
  | nil => exact raises_of_not_fails fun _ _ => fails_mapM_nil
  | cons a as ih =>
      intro s error h
      rcases fails_mapM_cons.mp h with h | ⟨b, t, -, h⟩
      · exact hf a s error h
      · exact ih t error h

end Raises

/-- Asking for the type of the flags is an error of the instruction. -/
theorem raises_typeOf : Raises pc (typeOf pc e) := by
  unfold typeOf
  split
  · exact raises_pure
  · exact raises_throw rfl

/-- So is an entry of another type than the one that is asked for. -/
theorem raises_checkType : Raises pc (checkType pc e ty) :=
  raises_typeOf.bind fun _ => .ite (raises_throw rfl) raises_pure

/-- A local variable that the method has not declared. -/
theorem raises_checkLocal {index : Nat} : Raises pc (checkLocal site pc index ty) :=
  .ite (raises_throw rfl) raises_pure

/-- A stack that grows beyond the declared depth. -/
theorem raises_push : Raises pc (push site pc e) :=
  .get_bind fun _ => .ite ((raises_throw rfl).bind fun _ => raises_set) raises_set

/-- The flags are no operand. -/
theorem raises_operandOf : Raises pc (operandOf site pc e) := by
  cases e with
  | flags => exact raises_throw rfl
  | literal value => cases value <;> exact raises_pure
  | localVar | merge | tmp => exact raises_pure

/-- Two ways into a branch target that disagree about the stack. -/
theorem raises_recordEntry {target : Nat} : Raises pc (recordEntry pc target) := by
  have htypes : Raises pc (stackTypes pc) := .get_bind fun _ => .mapM (fun _ => raises_typeOf) _
  refine htypes.bind fun _ => .get_bind fun s => ?_
  split
  · exact .ite (raises_throw rfl) raises_pure
  · exact raises_set

/-! ### Steps that may end in a fault -/

/-- Popping ends in a fault only if the count of words is less than what the top entry takes. -/
theorem fails_pop (h : Fails (pop pc) s error) : error.position? = some pc ∨
    ∃ e rest, s.stack.entries = e :: rest ∧ s.stack.words < e.words := by
  simp only [pop, OperandStack.pop?, fails_get_bind] at h
  cases hentries : s.stack.entries with
  | nil =>
      simp only [hentries, fails_throw] at h
      subst h
      exact .inl rfl
  | cons e rest =>
      by_cases hwords : s.stack.words < e.words
      · exact .inr ⟨e, rest, rfl, hwords⟩
      · simp [hentries, hwords] at h

/-- Giving back a temporary ends in a fault if it is free. -/
theorem fails_releaseEntry (h : Fails (releaseEntry e) s error) :
    s.stack.releaseEntry e = none := by
  simp only [releaseEntry, fails_get_bind] at h
  cases hrelease : s.stack.releaseEntry e with
  | none => rfl
  | some stack =>
      rw [hrelease] at h
      exact absurd h fails_set

/-- Using up an entry ends in a fault only if its temporary is free. -/
theorem fails_consume (h : Fails (consume site pc e) s error) :
    error.position? = some pc ∨ s.stack.releaseEntry e = none := by
  rcases fails_bind.mp h with h | ⟨a, u, hoperand, h⟩
  · exact .inl (raises_operandOf s error h)
  · obtain ⟨-, rfl⟩ := yields_operandOf.mp hoperand
    rcases fails_bind.mp h with h | ⟨_, u, -, h⟩
    · exact .inr (fails_releaseEntry h)
    · exact absurd h fails_pure

end SlotJit.Lowering

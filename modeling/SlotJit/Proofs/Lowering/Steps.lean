import SlotJit.Lowering.Method
import SlotJit.Proofs.Fallible

/-!
# Steps of lowering, taken apart

`Yields x s a t` says that the step `x` succeeds in the state `s`, gives `a` and leaves `t`. For
every step there is one lemma that says exactly when it yields what; larger steps are taken apart by
`yields_bind`, and nothing else unfolds them.
-/

namespace SlotJit.Lowering

open SlotJit.Bytecode SlotJit.Ir SlotJit.Tables

variable {α β : Type} {site : Site} {pc : Nat} {s t u : State} {e : Entry} {ty : ValueType}

/-- A step of lowering succeeds, with a result and a state. -/
def Yields (x : Lower α) (s : State) (a : α) (t : State) : Prop := x.run s = .ok (a, t)

/-- A step has one result. -/
theorem Yields.unique {x : Lower α} {a b : α} (h : Yields x s a t) (h' : Yields x s b u) :
    a = b ∧ t = u :=
  Prod.mk.inj (Except.ok.inj (h.symm.trans h'))

/-! ### Plumbing -/

/-- A value alone is the result. -/
@[simp] theorem yields_pure {a b : α} : Yields (pure a) s b t ↔ a = b ∧ s = t := by
  show Except.ok (a, s) = .ok (b, t) ↔ _
  simp

/-- One step after the other. -/
@[simp] theorem yields_bind {x : Lower α} {f : α → Lower β} {b : β} :
    Yields (x >>= f) s b u ↔ ∃ a t, Yields x s a t ∧ Yields (f a) t b u := by
  simp only [Yields, StateT.run_bind, bind_eq_ok, Prod.exists]

/-- A function of the result. -/
@[simp] theorem yields_map {x : Lower α} {f : α → β} {b : β} :
    Yields (f <$> x) s b t ↔ ∃ a, Yields x s a t ∧ f a = b := by
  rw [← bind_pure_comp, yields_bind]
  constructor
  · rintro ⟨a, u, hx, hpure⟩
    obtain ⟨rfl, rfl⟩ := yields_pure.mp hpure
    exact ⟨a, hx, rfl⟩
  · rintro ⟨a, hx, rfl⟩
    exact ⟨a, t, hx, yields_pure.mpr ⟨rfl, rfl⟩⟩

/-- Dropping the result. -/
theorem yields_discard {x : Lower α} {a : Unit} :
    Yields (discard x) s a t ↔ ∃ b, Yields x s b t := by
  rw [discard, map_const]
  simp

/-- A failure yields nothing. -/
@[simp] theorem yields_throw {e : Error} {a : α} : ¬ Yields (throw e : Lower α) s a t := by
  intro h
  cases (show Except.error e = Except.ok (a, t) from h)

/-- Reading the state. -/
@[simp] theorem yields_get_bind {f : State → Lower β} {b : β} :
    Yields (get >>= f) s b t ↔ Yields (f s) s b t := Iff.rfl

/-- Setting the state. -/
@[simp] theorem yields_set {a : PUnit} : Yields (set u) s a t ↔ u = t := by
  show Except.ok (PUnit.unit, u) = .ok (a, t) ↔ _
  simp

/-- Changing the state. -/
@[simp] theorem yields_modify {f : State → State} {a : PUnit} :
    Yields (modify f) s a t ↔ f s = t := by
  show Except.ok (PUnit.unit, f s) = .ok (a, t) ↔ _
  simp

/-- Changing the state and answering. -/
@[simp] theorem yields_modifyGet {f : State → α × State} {a : α} :
    Yields (modifyGet f) s a t ↔ f s = (a, t) := by
  show Except.ok (f s) = .ok (a, t) ↔ _
  simp

/-- A choice of steps. -/
@[simp] theorem yields_ite {p : Prop} [Decidable p] {x y : Lower α} {a : α} :
    Yields (if p then x else y) s a t ↔ (p ∧ Yields x s a t) ∨ (¬ p ∧ Yields y s a t) := by
  by_cases h : p <;> simp [h]

/-! ### Entries and temporaries -/

/-- The operand that stands for an entry, if it is not the flags. -/
def Entry.operand? (site : Site) : Entry → Option Operand
  | .literal (.int value) => some (.int value.toInt64)
  | .literal (.long value) => some (.int value)
  | .literal (.float bits) => some (.float bits)
  | .literal (.double bits) => some (.double bits)
  | .literal .null => some (.int 0)
  | .localVar index _ => some (.slot index)
  | .merge depth _ => some (site.mergeSlot depth)
  | .tmp index _ => some (site.tmpSlot index)
  | .flags => none

/-- Emitting adds one instruction. -/
theorem yields_emit {inst : Inst} {a : Unit} : Yields (emit inst) s a t ↔
    t = { s with code := s.code.push (.inst inst) } := by
  simp [emit, eq_comm]

/-- A move is one instruction. -/
theorem yields_emitMove {dst src : Operand} {a : Unit} : Yields (emitMove ty dst src) s a t ↔
    t = { s with
      code := s.code.push (.inst { kind := .move ty, dst := some dst, args := [src] }) } :=
  yields_emit

/-- Taking a temporary. -/
theorem yields_takeTmp {index : Nat} : Yields takeTmp s index t ↔
    index = s.stack.alloc.1 ∧ t = { s with stack := s.stack.alloc.2 } := by
  simp [takeTmp, eq_comm]

/-- Releasing what an entry holds. -/
theorem yields_releaseEntry {a : Unit} : Yields (releaseEntry e) s a t ↔
    ∃ stack, s.stack.releaseEntry e = some stack ∧ t = { s with stack } := by
  simp only [releaseEntry, yields_get_bind]
  cases h : s.stack.releaseEntry e <;> simp [eq_comm]

/-- A push has to fit. -/
theorem yields_push {a : Unit} : Yields (push site pc e) s a t ↔
    s.stack.words + e.words ≤ site.maxStack.toNat ∧ t = { s with stack := s.stack.push e } := by
  simp only [push, yields_get_bind]
  split
  · simp; omega
  · simp [eq_comm]; omega

/-- The stack without its top entry; a temporary that the entry holds stays taken. -/
def OperandStack.popped (stack : OperandStack) (e : Entry) (rest : List Entry) : OperandStack :=
  { stack with entries := rest, words := stack.words - e.words }

/-- A pop takes the entry on top. -/
theorem yields_pop : Yields (pop pc) s e t ↔ ∃ rest, s.stack.entries = e :: rest ∧
    e.words ≤ s.stack.words ∧ t = { s with stack := s.stack.popped e rest } := by
  simp only [pop, OperandStack.pop?, yields_get_bind]
  cases h : s.stack.entries with
  | nil => simp
  | cons first rest =>
      by_cases hwords : s.stack.words < first.words
      · have hnot : ¬ first.words ≤ s.stack.words := Nat.not_le.mpr hwords
        simp only [hwords, if_true, yields_bind, List.cons.injEq]
        refine ⟨fun ⟨_, _, hthrow, _⟩ => absurd hthrow yields_throw, ?_⟩
        rintro ⟨_, ⟨rfl, rfl⟩, hle, -⟩
        exact absurd hle hnot
      · simp only [hwords, if_false, bind_pure_comp, yields_map, yields_set, List.cons.injEq]
        constructor
        · rintro ⟨-, rfl, rfl⟩
          exact ⟨rest, ⟨rfl, rfl⟩, Nat.not_lt.mp hwords, rfl⟩
        · rintro ⟨_, ⟨rfl, rfl⟩, -, rfl⟩
          exact ⟨(), rfl, rfl⟩

/-- An entry has a type. -/
theorem yields_typeOf : Yields (typeOf pc e) s ty t ↔ e.valueType? = some ty ∧ s = t := by
  unfold typeOf
  cases e.valueType? <;> simp

/-- An entry has a type that is asked for. -/
theorem yields_checkType {a : Unit} :
    Yields (checkType pc e ty) s a t ↔ e.valueType? = some ty ∧ s = t := by
  simp only [checkType, yields_bind, yields_typeOf]
  constructor
  · rintro ⟨found, _, ⟨hfound, rfl⟩, h⟩
    simp only [ne_eq, ite_not, yields_ite, yields_pure, true_and] at h
    rcases h with ⟨rfl, rfl⟩ | ⟨-, h⟩
    · exact ⟨hfound, rfl⟩
    · exact absurd h yields_throw
  · rintro ⟨h, rfl⟩
    exact ⟨ty, s, ⟨h, rfl⟩, by simp⟩

/-- An entry has an operand. -/
theorem yields_operandOf {a : Operand} : Yields (operandOf site pc e) s a t ↔
    e.operand? site = some a ∧ s = t := by
  unfold operandOf Entry.operand?
  split <;> simp

/-- Consuming an entry gives its operand and releases it. -/
theorem yields_consume {a : Operand} : Yields (consume site pc e) s a t ↔
    e.operand? site = some a ∧ ∃ stack, s.stack.releaseEntry e = some stack ∧
      t = { s with stack } := by
  simp only [consume, yields_bind, yields_operandOf, yields_releaseEntry, yields_pure]
  constructor
  · rintro ⟨_, _, ⟨ha, rfl⟩, _, _, ⟨stack, hstack, rfl⟩, rfl, rfl⟩
    exact ⟨ha, stack, hstack, rfl⟩
  · rintro ⟨ha, stack, hstack, rfl⟩
    exact ⟨a, s, ⟨ha, rfl⟩, (), _, ⟨stack, hstack, rfl⟩, rfl, rfl⟩

/-- Popping an operand of a type. -/
theorem yields_popTyped {a : Operand} : Yields (popTyped site pc ty) s a t ↔
    ∃ e rest stack, s.stack.entries = e :: rest ∧ e.words ≤ s.stack.words ∧ e.valueType? = some ty ∧
      e.operand? site = some a ∧ (s.stack.popped e rest).releaseEntry e = some stack ∧
        t = { s with stack } := by
  simp only [popTyped, yields_bind, yields_pop, yields_checkType, yields_consume]
  constructor
  · rintro ⟨e, _, ⟨rest, hentries, hwords, rfl⟩, _, _, ⟨hty, rfl⟩, ha, stack, hstack, rfl⟩
    exact ⟨e, rest, stack, hentries, hwords, hty, ha, hstack, rfl⟩
  · rintro ⟨e, rest, stack, hentries, hwords, hty, ha, hstack, rfl⟩
    exact ⟨e, _, ⟨rest, hentries, hwords, rfl⟩, (), _, ⟨hty, rfl⟩, ha, stack, hstack, rfl⟩

/-- Popping an entry of one word. -/
theorem yields_popWord : Yields (popWord pc) s e t ↔
    Yields (pop pc) s e t ∧ ∃ ty, e.valueType? = some ty ∧ ty.isWide = false := by
  simp only [popWord, yields_bind, yields_typeOf]
  constructor
  · rintro ⟨e', u, hpop, ty, _, ⟨hty, rfl⟩, h⟩
    cases hwide : ty.isWide with
    | true =>
        simp only [hwide, if_true, yields_bind] at h
        obtain ⟨_, _, h, -⟩ := h
        exact absurd h yields_throw
    | false =>
        simp only [hwide, Bool.false_eq_true, if_false, yields_pure] at h
        obtain ⟨rfl, rfl⟩ := h
        exact ⟨hpop, ty, hty, hwide⟩
  · rintro ⟨hpop, ty, hty, hwide⟩
    exact ⟨e, t, hpop, ty, t, ⟨hty, rfl⟩, by simp [hwide]⟩

/-- A result goes to a new temporary. -/
theorem yields_pushTmp {a : Operand} : Yields (pushTmp site pc ty) s a t ↔
    a = site.tmpSlot s.stack.alloc.1 ∧ s.stack.words + ty.words ≤ site.maxStack.toNat ∧
      t = { s with stack := s.stack.alloc.2.push (.tmp s.stack.alloc.1 ty) } := by
  have hwords : s.stack.alloc.2.words = s.stack.words := by
    unfold OperandStack.alloc
    split <;> rfl
  simp only [pushTmp, yields_bind, yields_takeTmp, yields_push, yields_pure]
  constructor
  · rintro ⟨_, _, ⟨rfl, rfl⟩, _, _, ⟨hle, rfl⟩, rfl, rfl⟩
    exact ⟨rfl, hwords ▸ hle, rfl⟩
  · rintro ⟨rfl, hle, rfl⟩
    exact ⟨_, _, ⟨rfl, rfl⟩, (), _, ⟨hwords.symm ▸ hle, rfl⟩, rfl, rfl⟩

/-- A local variable is there. -/
theorem yields_checkLocal {index : Nat} {a : Unit} : Yields (checkLocal site pc index ty) s a t ↔
    index + ty.words ≤ site.maxLocals.toNat ∧ s = t := by
  unfold checkLocal
  split
  · simp; omega
  · simp; omega

/-! ### Lists of steps -/

/-- Nothing to do for an empty list. -/
@[simp] theorem yields_mapM_nil {f : α → Lower β} {bs : List β} :
    Yields (List.mapM f []) s bs t ↔ bs = [] ∧ s = t := by
  rw [List.mapM_nil, yields_pure, eq_comm]

/-- An element first, then the others. -/
theorem yields_mapM_cons {f : α → Lower β} {a : α} {as : List α} {bs : List β} :
    Yields (List.mapM f (a :: as)) s bs u ↔ ∃ b rest t, Yields (f a) s b t ∧
      Yields (List.mapM f as) t rest u ∧ bs = b :: rest := by
  simp only [List.mapM_cons, yields_bind, yields_pure]
  constructor
  · rintro ⟨b, t, hb, rest, _, hrest, rfl, rfl⟩
    exact ⟨b, rest, t, hb, hrest, rfl⟩
  · rintro ⟨b, rest, t, hb, hrest, rfl⟩
    exact ⟨b, t, hb, rest, _, hrest, rfl, rfl⟩

/-- The types of entries. -/
theorem yields_mapM_typeOf {es : List Entry} {types : List ValueType} :
    Yields (es.mapM (typeOf pc)) s types t ↔ es.map Entry.valueType? = types.map some ∧ s = t := by
  induction es generalizing types s with
  | nil => rw [yields_mapM_nil, List.map_nil, eq_comm (a := []), List.map_eq_nil_iff]
  | cons e es ih =>
      rw [yields_mapM_cons, List.map_cons]
      constructor
      · rintro ⟨ty, rest, _, hfirst, htail, rfl⟩
        obtain ⟨hty, rfl⟩ := yields_typeOf.mp hfirst
        obtain ⟨hrest, rfl⟩ := ih.mp htail
        exact ⟨by rw [hty, hrest, List.map_cons], rfl⟩
      · rintro ⟨hmap, rfl⟩
        obtain ⟨ty, rest, rfl, hty, hrest⟩ := List.map_eq_cons_iff.mp hmap.symm
        exact ⟨ty, rest, s, yields_typeOf.mpr ⟨hty.symm, rfl⟩, ih.mpr ⟨hrest.symm, rfl⟩, rfl⟩

/-- The types on the stack, from the bottom. -/
theorem yields_stackTypes {types : List ValueType} : Yields (stackTypes pc) s types t ↔
    s.stack.entries.reverse.map Entry.valueType? = types.map some ∧ s = t :=
  yields_mapM_typeOf

/-- Recording the stack that a target is entered with succeeds if nothing else was recorded. -/
theorem yields_recordEntry {target : Nat} {a : Unit} : Yields (recordEntry pc target) s a t ↔
    ∃ types : List ValueType, s.stack.entries.reverse.map Entry.valueType? = types.map some ∧
      ((s.entryTypes[target]? = some types ∧ t = s) ∨
        (s.entryTypes[target]? = none ∧
          t = { s with entryTypes := s.entryTypes.insert target types })) := by
  rw [recordEntry, yields_bind]
  simp only [yields_stackTypes, yields_get_bind]
  constructor
  · rintro ⟨types, _, ⟨hmap, rfl⟩, h⟩
    refine ⟨types, hmap, ?_⟩
    cases hknown : s.entryTypes[target]? with
    | none =>
        simp only [hknown, yields_set] at h
        exact Or.inr ⟨rfl, h.symm⟩
    | some known =>
        simp only [hknown, ne_eq, ite_not, yields_ite, yields_pure, true_and] at h
        rcases h with ⟨rfl, rfl⟩ | ⟨-, h⟩
        · exact Or.inl ⟨rfl, rfl⟩
        · exact absurd h yields_throw
  · rintro ⟨types, hmap, ⟨hknown, rfl⟩ | ⟨hknown, rfl⟩⟩
    · exact ⟨types, t, ⟨hmap, rfl⟩, by simp [hknown]⟩
    · exact ⟨types, s, ⟨hmap, rfl⟩, by simp [hknown]⟩

end SlotJit.Lowering

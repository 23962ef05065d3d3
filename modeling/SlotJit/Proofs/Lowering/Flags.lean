import SlotJit.Proofs.Lowering.Provenance

/-!
# The flags that a conditional jump tests

A conditional jump tests the flags of a compare that comes before it with nothing but moves in
between. The compare is emitted by the branch itself, or it is the compare of two longs that left
the value which the branch looks at. In the second case that value is on the symbolic stack as a
flags entry, and between the two there can only be instructions that move values around above it:
all others clobber the flags, or flush the stack, which fails on a flags entry. So no branch target
lies in between either.

`Rearranges` says what instructions that only move values do to the types on the stack. `Carried` is
what follows for the stack machine: from the compare on, control comes to a position with some
values above those that were there. `Pending` puts this together as an invariant of lowering.

## Main results

* `pending_of_reached`: the flags entries on the symbolic stack between two stages.
* `Lowered.exists_compare`: the compare of a conditional jump.
-/

namespace SlotJit.Lowering

open SlotJit.Bytecode SlotJit.Ir SlotJit.Semantics SlotJit.Tables

variable {site : Site} {r : Routine} {l : Located} {instrs before : List Located} {pc k : Nat}
  {s t u : State} {e : Entry} {ty : ValueType}

/-! ### Types on the symbolic stack -/

/-- The types of the stack entries, the top first; flags have none. -/
def State.types (s : State) : List (Option ValueType) := s.stack.entries.map Entry.valueType?

/-- The type on top is that of the entry popped. -/
theorem types_of_pop (h : Yields (pop pc) s e t) : s.types = e.valueType? :: t.types := by
  obtain ⟨rest, hentries, -, rfl⟩ := yields_pop.mp h
  rw [State.types, hentries]
  rfl

/-- Pushing an entry adds its type. -/
theorem types_of_push {a : Unit} (h : Yields (push site pc e) s a t) :
    t.types = e.valueType? :: s.types := by
  obtain ⟨-, rfl⟩ := yields_push.mp h
  rfl

/-- Releasing an entry leaves the types alone. -/
theorem types_of_releaseEntry {a : Unit} (h : Yields (releaseEntry e) s a t) :
    t.types = s.types := by
  obtain ⟨stack, hrelease, rfl⟩ := yields_releaseEntry.mp h
  rw [State.types, (releaseEntry_frame hrelease).1]
  rfl

/-- The top entry of one word. -/
theorem types_of_popWord (h : Yields (popWord pc) s e t) :
    ∃ ty, e.valueType? = some ty ∧ ty.isWide = false ∧ s.types = some ty :: t.types := by
  obtain ⟨hpop, ty, hty, hnarrow⟩ := yields_popWord.mp h
  exact ⟨ty, hty, hnarrow, hty ▸ types_of_pop hpop⟩

/-- A copy has the type of the entry. -/
theorem types_of_duplicate {copy : Entry} (h : Yields (duplicate site pc e) s copy t) :
    copy.valueType? = e.valueType? ∧ t.types = s.types := by
  cases e with
  | tmp index ty =>
      obtain ⟨rfl, rfl⟩ := yields_spill.mp h
      refine ⟨rfl, ?_⟩
      rw [State.types, (alloc_frame s.stack).1]
      rfl
  | flags => exact absurd h yields_throw
  | literal | localVar | merge =>
      obtain ⟨rfl, rfl⟩ := yields_pure.mp h
      exact ⟨rfl, rfl⟩

/-- Saving a local leaves the types alone. -/
theorem types_of_saveLocal {index : Nat} {a : Unit} (hindex : index < site.maxLocals.toNat)
    (htidy : Tidy site s.stack (e :: s.stack.entries)) (h : Yields (saveLocal site index) s a t) :
    t.types = s.types := by
  have htidy' : Tidy site s.stack ([e] ++ s.stack.entries) := htidy
  have htypes := (rewrites_saveLocal hindex htidy' h).1.types
  simpa [State.types] using htypes

/-- The instruction moves values between the stack and the local variables and does nothing else. -/
def onlyMoves : Instr → Bool
  | .nop | .push _ | .pushConstant .. | .load .. | .store .. | .pop | .pop2 | .dup | .dupX1
  | .dup2 | .swap => true
  | _ => false

/-- An instruction that only moves values takes values of some types from the top of the stack and
puts values of other types there. -/
inductive Rearranges (r : Routine) : Instr → List ValueType → List ValueType → Prop
  | nop : Rearranges r .nop [] []
  | push (value : Literal) : Rearranges r (.push value) [] [value.valueType]
  | pushConstant {index : UInt16} {wide : Bool} {value : Literal}
      (h : StackMachine.constant? r.constants index wide = some value) :
      Rearranges r (.pushConstant index wide) [] [value.valueType]
  | load {ty : ValueType} {index : Nat} (h : index + ty.words ≤ r.maxLocals) :
      Rearranges r (.load ty index) [] [ty]
  | store {ty : ValueType} {index : Nat} (h : index + ty.words ≤ r.maxLocals) :
      Rearranges r (.store ty index) [ty] []
  | pop {ty : ValueType} (h : ty.isWide = false) : Rearranges r .pop [ty] []
  | pop2Wide {ty : ValueType} (h : ty.isWide = true) : Rearranges r .pop2 [ty] []
  | pop2 {ty₁ ty₂ : ValueType} (h₁ : ty₁.isWide = false) (h₂ : ty₂.isWide = false) :
      Rearranges r .pop2 [ty₁, ty₂] []
  | dup {ty : ValueType} (h : ty.isWide = false) : Rearranges r .dup [ty] [ty, ty]
  | dupX1 {ty₁ ty₂ : ValueType} (h₁ : ty₁.isWide = false) (h₂ : ty₂.isWide = false) :
      Rearranges r .dupX1 [ty₁, ty₂] [ty₁, ty₂, ty₁]
  | dup2Wide {ty : ValueType} (h : ty.isWide = true) : Rearranges r .dup2 [ty] [ty, ty]
  | dup2 {ty₁ ty₂ : ValueType} (h₁ : ty₁.isWide = false) (h₂ : ty₂.isWide = false) :
      Rearranges r .dup2 [ty₁, ty₂] [ty₁, ty₂, ty₁, ty₂]
  | swap {ty₁ ty₂ : ValueType} (h₁ : ty₁.isWide = false) (h₂ : ty₂.isWide = false) :
      Rearranges r .swap [ty₁, ty₂] [ty₂, ty₁]

/-- The types on the symbolic stack changed the way an instruction rearranges them. -/
def Shuffled (r : Routine) (instr : Instr) (s t : State) : Prop :=
  ∃ taken put types, Rearranges r instr taken put ∧ s.types = taken.map some ++ types ∧
    t.types = put.map some ++ types

/-- A store shuffles the stack. -/
theorem shuffled_lowerStore {index : Nat} {a : Unit} (hr : site.Describes r)
    (hs : Holds site s s.stack.entries) (h : Yields (lowerStore site pc ty index) s a t) :
    Shuffled r (.store ty index) s t := by
  simp only [lowerStore, yields_bind, yields_checkLocal, yields_checkType] at h
  obtain ⟨_, _, ⟨hindex, rfl⟩, e, u, hpop, _, _, ⟨hty, rfl⟩, h⟩ := h
  have hlt : index < site.maxLocals.toNat :=
    Nat.lt_of_lt_of_le (Nat.lt_add_of_pos_right (words_pos ty)) hindex
  obtain ⟨hentries, hquiet⟩ := quiet_pop site s.stack.entries hpop
  have hheld := (hquiet.holds hs).tidy
  rw [hentries] at hheld
  have hstored : t.types = u.types := by
    rcases yields_ite.mp h with ⟨-, h⟩ | ⟨-, h⟩
    · simp only [yields_bind, yields_consume, yields_emitMove] at h
      obtain ⟨_, v, hsave, _, _, ⟨-, stack, hrelease, rfl⟩, rfl⟩ := h
      rw [← types_of_saveLocal hlt hheld hsave, State.types, (releaseEntry_frame hrelease).1]
      rfl
    · obtain ⟨-, rfl⟩ := yields_pure.mp h
      rfl
  refine ⟨[ty], [], u.types, .store (hr.maxLocals ▸ hindex), ?_, hstored⟩
  rw [types_of_pop hpop, hty]
  rfl

/-- An instruction that only moves values rearranges the types on the stack, and
control goes on. -/
theorem shuffled_of_onlyMoves {flow : Flow} (hr : site.Describes r)
    (hs : Holds site s s.stack.entries) (hmoves : onlyMoves l.instr = true)
    (h : Yields (lowerInstr site l) s flow t) :
    flow = .next ∧ Shuffled r l.instr s t := by
  unfold lowerInstr at h
  cases hinstr : l.instr with
  | nop =>
      simp only [hinstr] at h
      obtain ⟨rfl, rfl⟩ := yields_pure.mp h
      exact ⟨rfl, [], [], s.types, .nop, rfl, rfl⟩
  | push value =>
      simp only [hinstr, yields_bind, yields_pure] at h
      obtain ⟨_, _, hpush, rfl, rfl⟩ := h
      exact ⟨rfl, [], _, s.types, .push value, rfl, types_of_push hpush⟩
  | pushConstant index wide =>
      simp only [hinstr, yields_bind, yields_pure] at h
      obtain ⟨_, _, hpush, rfl, rfl⟩ := h
      obtain ⟨value, hvalue, hpush⟩ := yields_push_of_lowerConstant hr hpush
      exact ⟨rfl, [], _, s.types, .pushConstant hvalue, rfl, types_of_push hpush⟩
  | load ty index =>
      simp only [hinstr, yields_bind, yields_pure, yields_checkLocal] at h
      obtain ⟨_, _, ⟨hindex, rfl⟩, _, _, hpush, rfl, rfl⟩ := h
      exact ⟨rfl, [], [ty], _, .load (hr.maxLocals ▸ hindex), rfl, types_of_push hpush⟩
  | store ty index =>
      simp only [hinstr, yields_bind, yields_pure] at h
      obtain ⟨_, _, hstore, rfl, rfl⟩ := h
      exact ⟨rfl, shuffled_lowerStore hr hs hstore⟩
  | pop =>
      simp only [hinstr, yields_bind, yields_pure] at h
      obtain ⟨_, _, hpop, _, _, hrelease, rfl, rfl⟩ := h
      obtain ⟨ty, -, hnarrow, htypes⟩ := types_of_popWord hpop
      exact ⟨rfl, [ty], [], _, .pop hnarrow, htypes, types_of_releaseEntry hrelease⟩
  | pop2 =>
      simp only [hinstr, yields_bind, yields_discard, yields_typeOf] at h
      obtain ⟨e, _, hpop, _, u, ⟨ty, hty, rfl⟩, _, _, hrelease, h⟩ := h
      have htypes := types_of_pop hpop
      rw [hty, ← types_of_releaseEntry hrelease] at htypes
      rcases yields_ite.mp h with ⟨hwords, h⟩ | ⟨hwords, h⟩
      · simp only [yields_bind, yields_pure] at h
        obtain ⟨_, _, hpop', _, _, hrelease', rfl, rfl⟩ := h
        obtain ⟨ty', -, hnarrow', htypes'⟩ := types_of_popWord hpop'
        have hnarrow : ty.isWide = false := by simpa [Entry.words_eq hty] using hwords
        rw [htypes'] at htypes
        exact ⟨rfl, [ty, ty'], [], _, .pop2 hnarrow hnarrow', htypes,
          types_of_releaseEntry hrelease'⟩
      · obtain ⟨rfl, rfl⟩ := yields_pure.mp h
        have hwide : ty.isWide = true := by simpa [Entry.words_eq hty] using hwords
        exact ⟨rfl, [ty], [], _, .pop2Wide hwide, htypes, rfl⟩
  | dup =>
      simp only [hinstr, yields_bind, yields_pure] at h
      obtain ⟨_, _, hpop, _, _, hcopy, _, _, hpush, _, _, hpush', rfl, rfl⟩ := h
      obtain ⟨ty, hty, hnarrow, htypes⟩ := types_of_popWord hpop
      obtain ⟨hcopied, hsame⟩ := types_of_duplicate hcopy
      refine ⟨rfl, [ty], [ty, ty], _, .dup hnarrow, htypes, ?_⟩
      rw [types_of_push hpush', types_of_push hpush, hcopied, hty, hsame]
      rfl
  | dupX1 =>
      simp only [hinstr, yields_bind, yields_pure] at h
      obtain ⟨_, _, hpop₁, _, _, hpop₂, _, _, hcopy, _, _, hpush₁, _, _, hpush₂, _, _, hpush₃, rfl,
          rfl⟩ := h
      obtain ⟨ty₁, hty₁, hnarrow₁, htypes₁⟩ := types_of_popWord hpop₁
      obtain ⟨ty₂, hty₂, hnarrow₂, htypes₂⟩ := types_of_popWord hpop₂
      obtain ⟨hcopied, hsame⟩ := types_of_duplicate hcopy
      refine ⟨rfl, [ty₁, ty₂], [ty₁, ty₂, ty₁], _, .dupX1 hnarrow₁ hnarrow₂, htypes₂ ▸ htypes₁, ?_⟩
      rw [types_of_push hpush₃, types_of_push hpush₂, types_of_push hpush₁, hcopied, hty₁,
        hty₂, hsame]
      rfl
  | dup2 =>
      simp only [hinstr, yields_bind] at h
      obtain ⟨e, _, hpop, h⟩ := h
      have htypes := types_of_pop hpop
      rcases yields_ite.mp h with ⟨hwords, h⟩ | ⟨hwords, h⟩
      · simp only [yields_bind, yields_pure] at h
        obtain ⟨_, _, hcopy, _, _, hpush, _, _, hpush', rfl, rfl⟩ := h
        obtain ⟨ty, hty, hwide⟩ := Entry.exists_wide hwords
        obtain ⟨hcopied, hsame⟩ := types_of_duplicate hcopy
        refine ⟨rfl, [ty], [ty, ty], _, .dup2Wide hwide, hty ▸ htypes, ?_⟩
        rw [types_of_push hpush', types_of_push hpush, hcopied, hty, hsame]
        rfl
      · simp only [yields_bind, yields_discard, yields_typeOf, yields_pure] at h
        obtain ⟨_, _, ⟨ty, hty, rfl⟩, _, _, hpop₂, _, _, hcopy₂, _, _, hcopy₁, _, _, hpush₁, _,
          _, hpush₂, _, _, hpush₃, _, _, hpush₄, rfl, rfl⟩ := h
        obtain ⟨ty₂, hty₂, hnarrow₂, htypes₂⟩ := types_of_popWord hpop₂
        obtain ⟨hcopied₂, hsame₂⟩ := types_of_duplicate hcopy₂
        obtain ⟨hcopied₁, hsame₁⟩ := types_of_duplicate hcopy₁
        have hnarrow : ty.isWide = false := by simpa [Entry.words_eq hty] using hwords
        refine ⟨rfl, [ty, ty₂], [ty, ty₂, ty, ty₂], _, .dup2 hnarrow hnarrow₂,
          htypes₂ ▸ hty ▸ htypes, ?_⟩
        rw [types_of_push hpush₄, types_of_push hpush₃, types_of_push hpush₂, types_of_push hpush₁,
          hcopied₁, hcopied₂, hty, hty₂, hsame₁, hsame₂]
        rfl
  | swap =>
      simp only [hinstr, yields_bind, yields_pure] at h
      obtain ⟨_, _, hpop₁, _, _, hpop₂, _, _, hpush₁, _, _, hpush₂, rfl, rfl⟩ := h
      obtain ⟨ty₁, hty₁, hnarrow₁, htypes₁⟩ := types_of_popWord hpop₁
      obtain ⟨ty₂, hty₂, hnarrow₂, htypes₂⟩ := types_of_popWord hpop₂
      refine ⟨rfl, [ty₁, ty₂], [ty₂, ty₁], _, .swap hnarrow₁ hnarrow₂, htypes₂ ▸ htypes₁, ?_⟩
      rw [types_of_push hpush₂, types_of_push hpush₁, hty₁, hty₂]
      rfl
  | _ =>
      rw [hinstr] at hmoves
      cases hmoves

/-! ### What the stack machine keeps -/

/-- On values of some types the stack machine goes on to the next instruction, leaves values of
other types in their place, and does not look at what is below. -/
def Passes (r : Routine) (instr : Instr) (before after : List ValueType) : Prop :=
  ∀ env pc next locals values rest history, values.map Value.type = before →
    ∃ locals' values', StackMachine.execute r env ⟨pc, locals, values ++ rest, history⟩ next instr =
      .next ⟨next, locals', values' ++ rest, history⟩ ∧ values'.map Value.type = after

/-- What an instruction does not look at may have any types. -/
theorem Passes.above {instr : Instr} {taken put : List ValueType} (h : Passes r instr taken put)
    (types : List ValueType) : Passes r instr (taken ++ types) (put ++ types) := by
  intro env pc next locals values rest history htypes
  obtain ⟨front, back, rfl, hfront, hback⟩ := List.map_eq_append_iff.mp htypes
  obtain ⟨locals', values', hstep, htypes'⟩ :=
    h env pc next locals front (back ++ rest) history hfront
  refine ⟨locals', values' ++ back, ?_, by rw [List.map_append, htypes', hback]⟩
  rw [List.append_assoc, List.append_assoc, hstep]

/-- What only rearranges the stack can be passed through. -/
theorem Rearranges.passes {instr : Instr} {taken put : List ValueType}
    (h : Rearranges r instr taken put) : Passes r instr taken put := by
  intro env pc next locals values rest history htypes
  cases h with
  | nop => exact ⟨locals, values, by simp only [StackMachine.execute.eq_def], htypes⟩
  | push value =>
      obtain rfl := List.map_eq_nil_iff.mp htypes
      exact ⟨locals, [value.value], by simp [StackMachine.execute.eq_def], by simp⟩
  | @pushConstant _ _ value hvalue =>
      obtain rfl := List.map_eq_nil_iff.mp htypes
      exact ⟨locals, [value.value], by simp [StackMachine.execute.eq_def, hvalue], by simp⟩
  | @load ty index hindex =>
      obtain rfl := List.map_eq_nil_iff.mp htypes
      exact ⟨locals, [locals.get ty index], by simp [StackMachine.execute.eq_def, hindex], by simp⟩
  | @store ty index hindex =>
      obtain ⟨v, rfl, hv⟩ := List.map_eq_singleton_iff.mp htypes
      exact ⟨locals.set index v, [], by simp [StackMachine.execute.eq_def, hindex, hv], rfl⟩
  | pop hnarrow =>
      obtain ⟨v, rfl, rfl⟩ := List.map_eq_singleton_iff.mp htypes
      exact ⟨locals, [], by simp [StackMachine.execute.eq_def, hnarrow], rfl⟩
  | pop2Wide hwide =>
      obtain ⟨v, rfl, rfl⟩ := List.map_eq_singleton_iff.mp htypes
      exact ⟨locals, [], by simp [StackMachine.execute.eq_def, hwide], rfl⟩
  | pop2 h₁ h₂ =>
      obtain ⟨v, _, rfl, rfl, hrest⟩ := List.map_eq_cons_iff.mp htypes
      obtain ⟨w, rfl, rfl⟩ := List.map_eq_singleton_iff.mp hrest
      exact ⟨locals, [], by simp [StackMachine.execute.eq_def, h₁, h₂], rfl⟩
  | dup hnarrow =>
      obtain ⟨v, rfl, rfl⟩ := List.map_eq_singleton_iff.mp htypes
      exact ⟨locals, [v, v], by simp [StackMachine.execute.eq_def, hnarrow], rfl⟩
  | dupX1 h₁ h₂ =>
      obtain ⟨v, _, rfl, rfl, hrest⟩ := List.map_eq_cons_iff.mp htypes
      obtain ⟨w, rfl, rfl⟩ := List.map_eq_singleton_iff.mp hrest
      exact ⟨locals, [v, w, v], by simp [StackMachine.execute.eq_def, h₁, h₂], rfl⟩
  | dup2Wide hwide =>
      obtain ⟨v, rfl, rfl⟩ := List.map_eq_singleton_iff.mp htypes
      exact ⟨locals, [v, v], by simp [StackMachine.execute.eq_def, hwide], rfl⟩
  | dup2 h₁ h₂ =>
      obtain ⟨v, _, rfl, rfl, hrest⟩ := List.map_eq_cons_iff.mp htypes
      obtain ⟨w, rfl, rfl⟩ := List.map_eq_singleton_iff.mp hrest
      exact ⟨locals, [v, w, v, w], by simp [StackMachine.execute.eq_def, h₁, h₂], rfl⟩
  | swap h₁ h₂ =>
      obtain ⟨v, _, rfl, rfl, hrest⟩ := List.map_eq_cons_iff.mp htypes
      obtain ⟨w, rfl, rfl⟩ := List.map_eq_singleton_iff.mp hrest
      exact ⟨locals, [w, v], by simp [StackMachine.execute.eq_def, h₁, h₂], rfl⟩

/-- The values that an instruction puts on the stack are above the flags. -/
theorem exists_above {put above : List ValueType} {types below : List (Option ValueType)}
    (h : put.map some ++ types = above.map some ++ none :: below) :
    ∃ rest, above = put ++ rest ∧ types = rest.map some ++ none :: below := by
  induction put generalizing above with
  | nil => exact ⟨above, rfl, h⟩
  | cons ty put ih =>
      cases above with
      | nil => cases h
      | cons top above =>
          obtain ⟨htop, h⟩ := List.cons_eq_cons.mp h
          obtain ⟨rest, rfl, htypes⟩ := ih h
          exact ⟨rest, by rw [Option.some.inj htop]; rfl, htypes⟩

/-- An instruction that only moves values works above the flags. -/
theorem Shuffled.passes {instr : Instr} {above : List ValueType} {below : List (Option ValueType)}
    (h : Shuffled r instr s t) (htypes : t.types = above.map some ++ none :: below) :
    ∃ above', s.types = above'.map some ++ none :: below ∧ Passes r instr above' above := by
  obtain ⟨taken, put, types, hshuffled, hbefore, hafter⟩ := h
  obtain ⟨rest, rfl, rfl⟩ := exists_above (hafter.symm.trans htypes)
  refine ⟨taken ++ rest, ?_, hshuffled.passes.above rest⟩
  rw [hbefore, List.map_append, List.append_assoc]

/-- After an instruction, control comes to a position in some number of steps. All of them leave
alone what was on the stack, and in the end there are values of some types above it. -/
def Carried (r : Routine) (l : Located) (pc : Nat) (above : List ValueType) : Prop :=
  ∃ n, ∀ env (st : StackMachine.State), st.pc = l.next →
    (∀ m ≤ n, ∃ st' values, run (StackMachine.step r env) m st = .next st' ∧
      st'.stack = values ++ st.stack) ∧
    ∃ st' values, run (StackMachine.step r env) n st = .next st' ∧ st'.pc = pc ∧
      st'.stack = values ++ st.stack ∧ values.map Value.type = above

namespace Carried

/-- An instruction alone is carried to the next one. -/
theorem refl (l : Located) : Carried r l l.next [] := by
  refine ⟨0, fun env st hpc => ⟨fun m hm => ?_, st, [], rfl, hpc, rfl, rfl⟩⟩
  obtain rfl := Nat.le_zero.mp hm
  exact ⟨st, [], rfl, rfl⟩

/-- One more instruction that works above what is kept. -/
theorem step {x : Located} {above above' : List ValueType} (h : Carried r l x.pc above)
    (hfetch : fetch? r.code x.pc = some x) (hpasses : Passes r x.instr above above') :
    Carried r l x.next above' := by
  obtain ⟨n, hrun⟩ := h
  refine ⟨n + 1, fun env st hpc => ?_⟩
  obtain ⟨hkept, ⟨pc, locals, _, history⟩, values, hreached, rfl, rfl, htypes⟩ := hrun env st hpc
  obtain ⟨locals', values', hstep, htypes'⟩ :=
    hpasses env x.pc x.next locals values st.stack history htypes
  have hnext : run (StackMachine.step r env) (n + 1) st =
      .next ⟨x.next, locals', values' ++ st.stack, history⟩ := by
    rw [run_add hreached, run_one, StackMachine.step]
    simp only [hfetch, hstep]
  refine ⟨fun m hm => ?_, _, values', hnext, rfl, rfl, htypes'⟩
  rcases Nat.le_succ_iff.mp hm with hm | rfl
  · exact hkept m hm
  · exact ⟨_, values', hnext, rfl⟩

end Carried

/-! ### What keeps the flags -/

/-- Moves keep the flags. -/
theorem flagsIntact_of_adds (h : Adds (fun e => e.kind.isMove = true) s t) :
    t.flagsIntact = s.flagsIntact := by
  obtain ⟨added, hcode, hmoves⟩ := h
  induction added using List.reverseRecOn generalizing t with
  | nil => exact flagsIntact_congr (by simpa [← Array.toList_inj] using hcode)
  | append_singleton added e ih =>
      have hlast : e.kind.isMove = true := hmoves e (by simp)
      have hpush : t.code = { s with code := s.code ++ added.toArray : State }.code.push e := by
        simp [← Array.toList_inj, hcode]
      rw [flagsIntact_of_push hpush, if_pos hlast]
      exact ih (by simp) fun e he => hmoves e (List.mem_append_left _ he)

/-- An instruction other than a move or a compare loses the flags. -/
theorem flagsIntact_of_clobber {e : Emitted} (hcode : t.code = s.code.push e)
    (hmove : e.kind.isMove = false) (hcompare : ∀ ty, e.kind ≠ .compare ty) :
    t.flagsIntact = false := by
  rw [flagsIntact_of_push hcode, hmove, if_neg Bool.false_ne_true]
  split
  · exact absurd ‹_› (hcompare _)
  · rfl

/-- An instruction that only moves values emits moves. -/
theorem Emitted.From.isMove {e : Emitted} (h : e.From site l) (hmoves : onlyMoves l.instr = true) :
    e.kind.isMove = true := by
  have hnext : l.instr.displacement? = none := by
    cases hinstr : l.instr with
    | branch | jump =>
        rw [hinstr] at hmoves
        cases hmoves
    | _ => rfl
  cases h.issued_of_next hnext with
  | spill h =>
      obtain ⟨_, _, _, -, rfl⟩ := h
      rfl
  | store => rfl
  | increment hl | ret hl =>
      rw [hl] at hmoves
      cases hmoves
  | operation _ hl =>
      cases hinstr : l.instr with
      | nop | push | pushConstant | load | store | pop | pop2 | dup | dupX1 | dup2 | swap =>
          rw [hinstr] at hl
          cases hl
      | _ =>
          rw [hinstr] at hmoves
          cases hmoves
  | compare hl =>
      rcases hl with hl | ⟨_, _, _, hl⟩
      · rw [hl] at hmoves
        cases hmoves
      · rw [hl] at hmoves
        cases hmoves

/-- After a step of lowering, the flags of an earlier compare are lost. -/
def Clobbers {α : Type} (x : Lower α) : Prop := ∀ s a t, Yields x s a t → t.flagsIntact = false

section Clobbers

variable {α β : Type}

/-- A failure yields no state, so nothing of the flags is left. -/
theorem clobbers_throw {error : Error} : Clobbers (throw error : Lower α) :=
  fun _ _ _ h => absurd h yields_throw

/-- The flags are gone if what comes last spoils them. -/
theorem Clobbers.after {x : Lower α} {f : α → Lower β} (h : ∀ a, Clobbers (f a)) :
    Clobbers (x >>= f) := by
  intro s b t hyields
  obtain ⟨a, u, -, hyields⟩ := yields_bind.mp hyields
  exact h a u b t hyields

/-- A result does not bring the flags back. -/
theorem Clobbers.result {x : Lower α} (h : Clobbers x) (b : β) :
    Clobbers (x >>= fun _ => pure b) := by
  intro s b' t hyields
  obtain ⟨a, u, hx, hpure⟩ := yields_bind.mp hyields
  obtain ⟨-, rfl⟩ := yields_pure.mp hpure
  exact h s a u hx

/-- An instruction spoils the flags unless it is a move or a compare. -/
theorem clobbers_emit {inst : Inst} (hmove : inst.kind.isMove = false)
    (hcompare : ∀ ty, inst.kind ≠ .compare ty) : Clobbers (emit inst) := by
  intro s a t h
  obtain rfl := yields_emit.mp h
  exact flagsIntact_of_clobber rfl hmove hcompare

/-- An operation spoils the flags. -/
theorem clobbers_lowerOperation {kind : Kind} {front : List Operand} {op : Operation}
    (hmove : kind.isMove = false) (hcompare : ∀ ty, kind ≠ .compare ty) :
    Clobbers (lowerOperation site pc kind front op) :=
  .after fun _ => .after fun _ => clobbers_emit hmove hcompare

/-- After a jump the flags count as lost. -/
theorem clobbers_emitBranch {condition : Option Condition} {displacement : Int} :
    Clobbers (emitBranch site pc condition displacement) := by
  intro s a t h
  obtain ⟨u, v, -, -, rfl⟩ := yields_emitBranch.mp h
  refine flagsIntact_of_clobber rfl ?_ ?_ <;> cases condition <;> simp [Emitted.kind, Kind.isMove]

/-- An instruction loses the flags of an earlier compare, unless it only moves values or is a
compare itself. -/
theorem clobbers_lowerInstr (hmoves : onlyMoves l.instr = false)
    (hcompare : l.instr ≠ .compareLong) : Clobbers (lowerInstr site l) := by
  by_cases hoperation : isOperation l.instr = true
  · rcases lowerInstr_of_isOperation site hoperation with
      ⟨kind, front, op, hperforms, hlower⟩ | ⟨error, -, hlower⟩
    · obtain ⟨-, hmove, hcompare⟩ := kind_of_performs hperforms
      rw [hlower]
      exact (clobbers_lowerOperation hmove hcompare).result _
    · rw [hlower]
      exact clobbers_throw
  unfold lowerInstr
  cases hinstr : l.instr with
  | nop | push | pushConstant | load | store | pop | pop2 | dup | dupX1 | dup2 | swap =>
      rw [hinstr] at hmoves
      cases hmoves
  | compareLong => exact absurd hinstr hcompare
  | branch => exact .after fun _ => clobbers_emitBranch.result _
  | jump => exact clobbers_emitBranch.result _
  | increment =>
      exact Clobbers.result (.after fun _ => .after fun _ => clobbers_emit rfl (by simp)) _
  | ret => exact .after fun _ => (clobbers_emit rfl (by simp)).result _
  | unsupported => exact clobbers_throw
  | _ => exact absurd (by rw [hinstr]; rfl) hoperation

end Clobbers

/-! ### Flags on the symbolic stack -/

/-- The stage of the instruction `c`, which compares two longs, emitted a compare at an index. Since
then there were only moves, and no branch target. -/
structure LastCompare (site : Site) (before earlier between : List Located) (c : Located)
    (start stop s : State) (i : Nat) : Prop where
  split : before = earlier ++ c :: between
  reached : Yields (earlier.forM (lowerAt site)) {} () start
  lowered : Yields (lowerAt site c) start () stop
  instr : c.instr = .compareLong
  position : ∃ u, Yields (enter site c.pc) start () u ∧ u.code.size = i ∧ stop.code.size = i + 1
  emitted : ∃ a b, s.code[i]? = some (.inst { kind := .compare .long, args := [a, b] })
  moves : ∀ k e, i < k → s.code[k]? = some e → e.kind.isMove = true
  untargeted : ∀ x ∈ between, site.targets.contains x.pc = false

namespace LastCompare

variable {earlier between : List Located} {c : Located} {start stop : State} {i : Nat}
  (h : LastCompare site before earlier between c start stop s i)

include h

/-- The last compare is in the code. -/
theorem lt_size : i < s.code.size := by
  obtain ⟨a, b, he⟩ := h.emitted
  exact (Array.getElem?_eq_some_iff.mp he).1

/-- Code that only moves values leaves the compare the last one. -/
theorem adds (hadds : Adds (fun e => e.kind.isMove = true) s t) :
    LastCompare site before earlier between c start stop t i := by
  refine ⟨h.split, h.reached, h.lowered, h.instr, h.position, ?_, fun k e hk he => ?_, h.untargeted⟩
  · rw [hadds.getElem?_of_lt h.lt_size]
    exact h.emitted
  · by_cases hlt : k < s.code.size
    · rw [hadds.getElem?_of_lt hlt] at he
      exact h.moves k e hk he
    · exact hadds.of_getElem? (Nat.not_lt.mp hlt) he

/-- The compare stays the last one while no block starts. -/
theorem next (hl : site.targets.contains l.pc = false) :
    LastCompare site (before ++ [l]) earlier (between ++ [l]) c start stop s i := by
  refine ⟨by rw [h.split]; simp, h.reached, h.lowered, h.instr, h.position, h.emitted, h.moves, ?_⟩
  intro x hx
  rcases List.mem_append.mp hx with hx | hx
  · exact h.untargeted x hx
  · rwa [List.mem_singleton.mp hx]

end LastCompare

/-- As long as the flags of a compare are there, the topmost flags entry on the symbolic stack is
about that compare, and its value is on the stack below as many values as there are entries above
the flags. -/
def Pending (site : Site) (r : Routine) (before : List Located) (pc : Nat) (s : State) : Prop :=
  s.flagsIntact = true → ∀ above below, s.types = above.map some ++ none :: below →
    ∃ earlier between c start stop i, LastCompare site before earlier between c start stop s i ∧
      Carried r c pc above

/-- Between stages the flags are not on the stack of a branch target. -/
theorem untargeted_of_flags {a : Unit} {above : List ValueType} {below : List (Option ValueType)}
    (h : Yields (enter site pc) s a t) (htypes : t.types = above.map some ++ none :: below) :
    site.targets.contains pc = false ∧ t = s := by
  unfold enter at h
  rcases yields_ite.mp h with ⟨htarget, h⟩ | ⟨htarget, h⟩
  · obtain ⟨_, u, -, hrecord⟩ := yields_bind.mp h
    obtain ⟨types, htyped, hrecorded⟩ := yields_recordEntry.mp hrecord
    have hsame : t.types = u.types := by
      rcases hrecorded with ⟨-, rfl⟩ | ⟨-, rfl⟩ <;> rfl
    rw [List.map_reverse, List.reverse_eq_iff, ← List.map_reverse] at htyped
    have hflags : none ∈ types.reverse.map some := by
      rw [← htyped, ← State.types, ← hsame, htypes]
      simp
    simp at hflags
  · exact ⟨by simpa using htarget, (yields_pure.mp h).2.symm⟩

/-- The compare of two longs is the last one after its own stage. -/
theorem pending_of_compareLong (hl : l.instr = .compareLong)
    (hreached : Yields (before.forM (lowerAt site)) {} () s) (h : Yields (lowerAt site l) s () t) :
    Pending site r (before ++ [l]) l.next t := by
  obtain ⟨u, v, flow, henter, hlower, hresume⟩ := yields_lowerAt.mp h
  simp only [lowerInstr, hl, yields_bind, yields_pure] at hlower
  obtain ⟨b, _, hb, a, _, ha, _, _, hcompare, _, _, hpush, rfl, rfl⟩ := hlower
  cases hresume
  have hcode : t.code = u.code.push (.inst { kind := .compare .long, args := [a, b] }) := by
    obtain ⟨_, _, _, -, -, -, -, -, rfl⟩ := yields_popTyped.mp hb
    obtain ⟨_, _, _, -, -, -, -, -, rfl⟩ := yields_popTyped.mp ha
    obtain rfl := yields_emit.mp hcompare
    obtain ⟨-, rfl⟩ := yields_push.mp hpush
    rfl
  intro _ above below htypes
  rw [types_of_push hpush] at htypes
  obtain rfl : above = [] := by
    cases above with
    | nil => rfl
    | cons ty above => cases htypes
  refine ⟨before, [], l, s, t, u.code.size,
    ⟨rfl, hreached, h, hl, ⟨u, henter, rfl, ?_⟩, ⟨a, b, ?_⟩, ?_, ?_⟩, .refl l⟩
  · rw [hcode, Array.size_push]
  · rw [hcode, Array.getElem?_push_size]
  · intro k e hk he
    have hlt := (Array.getElem?_eq_some_iff.mp he).1
    rw [hcode, Array.size_push] at hlt
    omega
  · intro x hx
    cases hx

/-- One stage keeps track of the flags. -/
theorem pending_of_lowerAt (hr : site.Describes r) (hs : Orderly site s)
    (hreached : Yields (before.forM (lowerAt site)) {} () s) (hfetch : fetch? r.code l.pc = some l)
    (hpending : Pending site r before l.pc s) (h : Yields (lowerAt site l) s () t) :
    Pending site r (before ++ [l]) l.next t := by
  by_cases hcompare : l.instr = .compareLong
  · exact pending_of_compareLong hcompare hreached h
  obtain ⟨u, v, flow, henter, hlower, hresume⟩ := yields_lowerAt.mp h
  have hu : Orderly site (u.placed l.pc) := (maintains_enter.sound hs henter).placed l.pc
  intro hintact above below htypes
  rw [flagsIntact_congr hresume.same.1] at hintact
  cases hmoves : onlyMoves l.instr with
  | false =>
      -- All else ends with an instruction that loses the flags.
      rw [clobbers_lowerInstr hmoves hcompare _ _ _ hlower] at hintact
      cases hintact
  | true =>
      have hadds := (maintains_lowerInstr.grows hu hlower).adds.mono fun _ he => he.isMove hmoves
      obtain ⟨rfl, hshuffled⟩ := shuffled_of_onlyMoves hr hu.holds hmoves hlower
      cases hresume
      -- The flags are still below what was moved, so this is no branch target and the stage began
      -- in `s`.
      obtain ⟨above', htypes', hpasses⟩ := hshuffled.passes htypes
      obtain ⟨huntargeted, rfl⟩ := untargeted_of_flags henter htypes'
      rw [flagsIntact_of_adds hadds] at hintact
      obtain ⟨earlier, between, c, start, stop, i, hlast, hcarried⟩ :=
        hpending hintact above' below htypes'
      exact ⟨earlier, between ++ [l], c, start, stop, i, (hlast.adds hadds).next huntargeted,
        hcarried.step hfetch hpasses⟩

/-- Where the flags on the symbolic stack come from, after any number of stages. -/
theorem pending_of_reached {stop : Nat} (hr : site.Describes r)
    (hcontiguous : Contiguous 0 before stop) (hfetch : ∀ l ∈ before, fetch? r.code l.pc = some l)
    (h : Yields (before.forM (lowerAt site)) {} () s) : Pending site r before stop s := by
  induction before using List.reverseRecOn generalizing s stop with
  | nil =>
      obtain ⟨-, rfl⟩ := yields_pure.mp h
      intro hintact
      cases hintact
  | append_singleton before l ih =>
      -- The stages are added at the end, where `Pending` says what the last of them leaves.
      obtain ⟨u, hreached, hlast⟩ := yields_forM_append.mp h
      obtain ⟨t, hlowered, hend⟩ := yields_forM_cons.mp hlast
      obtain ⟨-, rfl⟩ := yields_pure.mp hend
      obtain ⟨cut, hbefore, hl⟩ := hcontiguous.exists_append
      cases hl with
      | cons _ hend =>
      obtain rfl := hend.eq_of_nil
      have hu := sound_forM (sound_empty site) hreached
      have hpending := ih hbefore (fun l hl => hfetch l (List.mem_append_left _ hl)) hreached
      exact pending_of_lowerAt hr hu hreached (hfetch l (by simp)) hpending hlowered

/-! ### Conditional jumps -/

/-- A branch on a condition emits the compare it asks for, unless that is a compare of two longs
whose flags are there. -/
theorem compare_of_lowerComparison {comparison : Comparison} {a : Unit}
    (h : Yields (lowerComparison site pc comparison) s a t) :
    (∃ ty args, t.code = s.code.push (.inst { kind := .compare ty, args })) ∨
      comparison = .zero ∧ t.code = s.code ∧ s.flagsIntact = true ∧
      ∃ below, s.types = none :: below := by
  cases comparison with
  | zero =>
      obtain ⟨e, u, hpop, h⟩ := yields_bind.mp h
      have htypes := types_of_pop hpop
      obtain ⟨rest, hentries, -, rfl⟩ := yields_pop.mp hpop
      rcases yields_ite.mp h with ⟨rfl, h⟩ | ⟨-, h⟩
      · right
        rcases yields_ite.mp (yields_get_bind.mp h) with ⟨-, h⟩ | ⟨hintact, h⟩
        · exact absurd h yields_throw
        · obtain ⟨-, rfl⟩ := yields_pure.mp h
          exact ⟨rfl, rfl, by simpa [State.flagsIntact] using hintact, _, htypes⟩
      · left
        simp only [yields_bind, yields_checkType, yields_consume, emitCompare, yields_emit] at h
        obtain ⟨_, _, ⟨-, rfl⟩, _, _, ⟨-, stack, -, rfl⟩, rfl⟩ := h
        exact ⟨_, _, rfl⟩
  | ints | refs =>
      left
      simp only [lowerComparison, yields_bind, yields_popTyped, emitCompare, yields_emit] at h
      obtain ⟨_, _, ⟨_, _, _, -, -, -, -, -, rfl⟩, _, _, ⟨_, _, _, -, -, -, -, -, rfl⟩, rfl⟩ := h
      exact ⟨_, _, rfl⟩
  | null =>
      left
      simp only [lowerComparison, yields_bind, yields_popTyped, emitCompare, yields_emit] at h
      obtain ⟨_, _, ⟨_, _, _, -, -, -, -, -, rfl⟩, rfl⟩ := h
      exact ⟨_, _, rfl⟩

/-- What is emitted is no branch. -/
def Emitted.Straight (e : Emitted) : Prop := ∃ inst, e = .inst inst

/-- What an instruction emits for itself is no branch. -/
theorem Emitted.Own.straight {e : Emitted} (h : e.Own site l) : e.Straight := by
  cases e with
  | inst i => exact ⟨i, rfl⟩
  | branch => exact h.elim

/-- What flushing and saving emit is no branch. -/
theorem Emitted.Shifts.straight {e : Emitted} (h : e.Shifts site) : e.Straight := by
  cases e with
  | inst i => exact ⟨i, rfl⟩
  | branch => exact h.elim

/-- Flushing and saving emit moves. -/
theorem Emitted.Shifts.isMove {e : Emitted} (h : e.Shifts site) : e.kind.isMove = true := by
  obtain ⟨inst, rfl⟩ := h.straight
  exact h.1

/-- A branch that comes after straight code is the last instruction. -/
theorem eq_last_of_branch {condition condition' : Option Condition} {target pc' target' : Nat}
    (hadds : Adds Emitted.Straight s t) (hk : s.code.size ≤ k)
    (he : (t.code.push (.branch condition pc target))[k]? = some (.branch condition' pc' target')) :
    k = t.code.size ∧ condition = condition' := by
  rw [Array.getElem?_push] at he
  split at he
  · cases he
    exact ⟨‹_›, rfl⟩
  · obtain ⟨inst, hinst⟩ := hadds.of_getElem? hk he
    cases hinst

/-- The stage of a conditional branch: after the moves into it come those of the compare and of a
flush, and the branch comes last. -/
structure BranchStage (site : Site) (l : Located) (comparison : Comparison) (condition : Condition)
    (s u v w t : State) : Prop where
  instr : ∃ displacement, l.instr = .branch comparison condition displacement
  enters : Yields (enter site l.pc) s () u
  compares : Yields (lowerComparison site l.pc comparison) (u.placed l.pc) () v
  flushes : Yields (flush site l.pc) v () w
  branches : ∃ e, t.code = w.code.push e

/-- A conditional jump is emitted at the end of its stage. -/
theorem exists_branchStage {a : Unit} {condition : Condition} {target : Nat} (hs : Orderly site s)
    (h : Yields (lowerAt site l) s a t) (hk : s.code.size ≤ k)
    (he : t.code[k]? = some (.branch (some condition) pc target)) :
    ∃ comparison u v w, BranchStage site l comparison condition s u v w t ∧ w.code.size = k := by
  obtain ⟨u, v, flow, henter, hlower, hresume⟩ := yields_lowerAt.mp h
  have hcode := hresume.same.1
  obtain ⟨hsound, hgrows⟩ := maintains_enter.yields s () u hs henter
  have hu : Orderly site (u.placed l.pc) := hsound.placed l.pc
  have hentered : Adds Emitted.Straight s (u.placed l.pc) :=
    hgrows.adds.mono fun _ he => he.shifts.straight
  rw [hcode] at he
  by_cases hl : l.instr.displacement? = none
  · have hown := (own_lowerInstr hu hl hlower).mono fun _ => Emitted.Own.straight
    obtain ⟨inst, hinst⟩ := (hentered.trans hown).of_getElem? hk he
    cases hinst
  cases hinstr : l.instr with
  | branch comparison condition' displacement =>
      simp only [lowerInstr, hinstr, yields_bind, yields_pure] at hlower
      obtain ⟨_, x, hcompare, _, _, hbranch, -, rfl⟩ := hlower
      obtain ⟨w, y, hflush, hrecord, rfl⟩ := yields_emitBranch.mp hbranch
      obtain ⟨hx, howns⟩ := (own_lowerComparison l).yields _ () x hu hcompare
      have hcompared := howns.adds.mono fun _ => Emitted.Own.straight
      have hflushed := (shifts_flush.grows hx hflush).adds.mono fun _ => Emitted.Shifts.straight
      rw [code_of_recordEntry hrecord] at he hcode
      obtain ⟨rfl, hcondition⟩ :=
        eq_last_of_branch ((hentered.trans hcompared).trans hflushed) hk he
      cases hcondition
      exact ⟨comparison, u, x, w, ⟨⟨displacement, hinstr⟩, henter, hcompare, hflush, _, hcode⟩, rfl⟩
  | jump displacement =>
      simp only [lowerInstr, hinstr, yields_bind, yields_pure] at hlower
      obtain ⟨_, _, hbranch, -, rfl⟩ := hlower
      obtain ⟨w, y, hflush, hrecord, rfl⟩ := yields_emitBranch.mp hbranch
      have hflushed := (shifts_flush.grows hu hflush).adds.mono fun _ => Emitted.Shifts.straight
      rw [code_of_recordEntry hrecord] at he
      obtain ⟨-, hcondition⟩ := eq_last_of_branch (hentered.trans hflushed) hk he
      cases hcondition
  | _ => exact absurd (by rw [hinstr]; rfl) hl

namespace BranchStage

variable {comparison : Comparison} {condition : Condition} {v w : State}
  (h : BranchStage site l comparison condition s u v w t)

include h

/-- The stage adds the jump and nothing after it. -/
theorem size_eq : t.code.size = w.code.size + 1 := by
  obtain ⟨e, hcode⟩ := h.branches
  rw [hcode, Array.size_push]

/-- What was emitted before the jump stays. -/
theorem getElem?_of_lt (hk : k < w.code.size) : t.code[k]? = w.code[k]? := by
  obtain ⟨e, hcode⟩ := h.branches
  rw [hcode, Array.getElem?_push, if_neg (Nat.ne_of_lt hk)]

/-- Before the compare are the moves into the position of the branch. -/
theorem size_le (hs : Orderly site s) : s.code.size ≤ u.code.size ∧ u.code.size ≤ v.code.size := by
  obtain ⟨hu, hentered⟩ := maintains_enter.yields s () u hs h.enters
  exact ⟨hentered.adds.size_le,
    ((own_lowerComparison l).grows (hu.placed l.pc) h.compares).adds.size_le⟩

/-- After the compare the flush moves. -/
theorem moves (hs : Orderly site s) : Adds (fun e => e.kind.isMove = true) v w := by
  have hu : Orderly site (u.placed l.pc) := (maintains_enter.sound hs h.enters).placed l.pc
  have hv := (own_lowerComparison l).sound hu h.compares
  exact (shifts_flush.grows hv h.flushes).adds.mono fun _ => Emitted.Shifts.isMove

end BranchStage

/-- The value that a compare of two longs leaves is what the instruction at a position finds on top
of the stack: control comes there in some number of steps, and all the time the value is on the
stack in its place. -/
def Feeds (r : Routine) (c : Located) (pc : Nat) : Prop :=
  ∃ n, ∀ env locals history a b rest,
    let start : StackMachine.State := ⟨c.pc, locals, .long b :: .long a :: rest, history⟩
    (∀ m ≤ n, ∃ st values, run (StackMachine.step r env) (m + 1) start = .next st ∧
      st.stack = values ++ orderValue (compareSigned a b) :: rest) ∧
    ∃ st, run (StackMachine.step r env) (n + 1) start = .next st ∧ st.pc = pc ∧
      st.stack = orderValue (compareSigned a b) :: rest

/-- A compare carried to a jump feeds it. -/
theorem Carried.feeds {c : Located} (h : Carried r c pc []) (hfetch : fetch? r.code c.pc = some c)
    (hc : c.instr = .compareLong) : Feeds r c pc := by
  obtain ⟨n, hrun⟩ := h
  refine ⟨n, fun env locals history a b rest => ?_⟩
  let compared : StackMachine.State :=
    ⟨c.next, locals, orderValue (compareSigned a b) :: rest, history⟩
  have hstep : StackMachine.step r env ⟨c.pc, locals, .long b :: .long a :: rest, history⟩ =
      .next compared := by
    simp only [StackMachine.step, hfetch, hc, StackMachine.execute.eq_def]
    rfl
  obtain ⟨hkept, st, values, hreached, hpc, hstack, htypes⟩ := hrun env compared rfl
  obtain rfl := List.map_eq_nil_iff.mp htypes
  refine ⟨fun m hm => ?_, st, ?_, hpc, hstack⟩
  · rw [run_succ_of_next hstep]
    exact hkept m hm
  · rw [run_succ_of_next hstep, hreached]

/-! ### Methods -/

section Methods

variable {context : Context} {owner : ClassTable} {method : Method} {stream : Stream} {fin : State}
  {body : Body}

/-- The instruction of the code at an index was emitted for an instruction of the bytecode. -/
def EmittedFor (context : Context) (owner : ClassTable) (method : Method) (l : Located)
    (k : Nat) : Prop :=
  ∃ stream before s t, Stream.scan method.bytecode = .ok stream ∧
    Stage (.of context owner method stream) stream.instrs before l s t ∧
    s.code.size ≤ k ∧ k < t.code.size

/-- The conditional jump at an index tests the flags of the compare at another: the instructions in
between are moves, jumps lead to none of them and not to the conditional jump, and the two are from
one branch of the bytecode, or the compare is of two longs and the branch looks at its value. -/
structure TestsCompare (context : Context) (owner : ClassTable) (method : Method) (body : Body)
    (condition : Condition) (i j : Nat) : Prop where
  lt : i < j
  compare : ∃ inst ty, body.code[i]? = some inst ∧ inst.kind = .compare ty
  moves : ∀ k inst, i < k → k < j → body.code[k]? = some inst → inst.kind.isMove = true
  entered : ∀ inst ∈ body.code, inst.kind.isJump = true → ∀ target :
    Int, .branch target ∈ inst.args → target ≤ i ∨ j < target
  origin : ∃ l comparison displacement, l.instr = .branch comparison condition displacement ∧
    EmittedFor context owner method l j ∧
    (EmittedFor context owner method l i ∨ comparison = .zero ∧ ∃ c, c.instr = .compareLong ∧
      EmittedFor context owner method c i ∧ Feeds (.of context owner method) c l.pc)

/-- Resolving keeps the kind of an instruction. -/
theorem kind_of_resolve {positions : Std.HashMap Nat Nat} {e : Emitted} {inst : Inst}
    (h : resolve positions e = .ok inst) : inst.kind = e.kind := by
  cases e with
  | inst i =>
      cases h
      rfl
  | branch condition pc target =>
      obtain ⟨_, -, ⟨rfl, rfl⟩ | ⟨_, rfl, rfl⟩⟩ := resolve_branch h
      · rfl
      · rfl

/-- The instructions of a body are those emitted. -/
theorem Lowered.exists_emitted (h : Lowered context owner method stream fin body) {inst : Inst}
    (hinst : body.code[k]? = some inst) : ∃ e, fin.code[k]? = some e ∧ inst.kind = e.kind := by
  obtain ⟨e, inst', marks, he, hresolve, rfl⟩ := h.resolved.exists_of_getElem? hinst
  rw [Array.getElem?_toList] at he
  refine ⟨e, he, ?_⟩
  rw [← kind_of_resolve hresolve]

/-- Of what a stage emits, only the branch jumps. -/
theorem isBranchOf_of_isJump {e : Emitted} (h : Stage site instrs before l s t)
    (hk : s.code.size ≤ k) (he : t.code[k]? = some e)
    (hjump : e.kind.isJump = true) : IsBranchOf l e := by
  rcases origin_of_lowerAt h.sound h.lowered hk he with ⟨-, hshifts⟩ | hown | hbranch
  · obtain ⟨⟨kind, dst, args, marks⟩, rfl⟩ := hshifts.straight
    cases kind with
    | jump | jumpIf => cases hshifts.1
    | _ => cases hjump
  · obtain ⟨inst, rfl⟩ := hown.straight
    cases hown.1.symm.trans hjump
  · exact hbranch

/-- Jumps lead to the code of branch targets. -/
theorem Lowered.exists_target (h : Lowered context owner method stream fin body) {inst : Inst}
    (hinst : inst ∈ body.code) (hjump : inst.kind.isJump = true) {target : Int}
    (htarget : .branch target ∈ inst.args) :
    ∃ x ∈ stream.instrs, stream.targets.contains x.pc = true ∧
      ∃ index : Nat, fin.positions[x.pc]? = some index ∧ target = index := by
  obtain ⟨k, hk⟩ := List.mem_iff_getElem?.mp hinst
  obtain ⟨before, l, s, t, e, inst', marks, hstage, hs, ht, he, hresolve, rfl⟩ := h.exists_stage hk
  obtain ⟨after, hsplit, -⟩ := hstage.rest h.run
  obtain ⟨condition, goal, hgoal, rfl⟩ :=
    isBranchOf_of_isJump hstage hs he (kind_of_resolve hresolve ▸ hjump)
  obtain ⟨-, hcontains, x, hx, hpc⟩ :=
    (scanned_of_scan h.scan).targets l (by rw [hsplit]; simp) goal hgoal
  obtain ⟨index, hindex, hkind⟩ := resolve_branch hresolve
  refine ⟨x, hx, hpc ▸ hcontains, index, hpc ▸ hindex, ?_⟩
  rcases hkind with ⟨-, rfl⟩ | ⟨_, -, rfl⟩
  · simpa using htarget
  · simpa using htarget

/-- No two instructions of a method are at one position. -/
theorem Lowered.nodup (h : Lowered context owner method stream fin body) :
    (stream.instrs.map Located.pc).Nodup := by
  have hscanned := scanned_of_scan h.scan
  exact nodup_of_contiguous hscanned.contiguous fun l hl => lt_next_of_fetch? (hscanned.fetch l hl)

/-- Where the flags on the symbolic stack come from, before any stage of a method. -/
theorem Lowered.pending (h : Lowered context owner method stream fin body)
    (hstage : Stage (.of context owner method stream) stream.instrs before l s t) :
    Pending (.of context owner method stream) (.of context owner method) before l.pc s := by
  have hscanned := scanned_of_scan h.scan
  obtain ⟨after, hsplit, -⟩ := hstage.rest h.run
  have hcontiguous := hscanned.contiguous
  rw [hsplit] at hcontiguous
  obtain ⟨cut, hbefore, hrest⟩ := hcontiguous.exists_append
  cases hrest
  refine pending_of_reached ⟨rfl, rfl, rfl⟩ hbefore (fun x hx => hscanned.fetch x ?_) hstage.reached
  rw [hsplit]
  exact List.mem_append_left _ hx

/-- What the stages emitted shows in the code of the method. -/
theorem Lowered.testsCompare (h : Lowered context owner method stream fin body)
    {condition : Condition} {i j : Nat} (hij : i < j)
    (hcompare : ∃ ty args, fin.code[i]? = some (.inst { kind := .compare ty, args }))
    (hmoves : ∀ k e, i < k → k < j → fin.code[k]? = some e → e.kind.isMove = true)
    (htargets : ∀ x ∈ stream.instrs, stream.targets.contains x.pc = true →
      ∀ index, fin.positions[x.pc]? = some index → index ≤ i ∨ j < index)
    (horigin : ∃ l comparison displacement, l.instr = .branch comparison condition displacement ∧
      EmittedFor context owner method l j ∧
      (EmittedFor context owner method l i ∨ comparison = .zero ∧ ∃ c, c.instr = .compareLong ∧
        EmittedFor context owner method c i ∧ Feeds (.of context owner method) c l.pc)) :
    TestsCompare context owner method body condition i j := by
  refine ⟨hij, ?_,
    fun k inst hik hkj hinst => ?_, fun inst hinst hjump target htarget => ?_, horigin⟩
  · obtain ⟨ty, args, he⟩ := hcompare
    rw [← Array.getElem?_toList] at he
    obtain ⟨inst, marks, hresolve, hinst⟩ := h.resolved.getElem? i _ he
    exact ⟨_, ty, hinst, kind_of_resolve hresolve⟩
  · obtain ⟨e, he, hkind⟩ := h.exists_emitted hinst
    rw [hkind]
    exact hmoves k e hik hkj he
  · obtain ⟨x, hx, hcontains, index, hindex, rfl⟩ := h.exists_target hinst hjump htarget
    exact (htargets x hx hcontains index hindex).imp Int.ofNat_le.mpr Int.ofNat_lt.mpr

section Branches

variable {v w : State} {comparison : Comparison} {condition : Condition}
  (h : Lowered context owner method stream fin body)
  (hstage : Stage (.of context owner method stream) stream.instrs before l s t)
  (hbranch : BranchStage (.of context owner method stream) l comparison condition s u v w t)

include h hstage hbranch

/-- A conditional jump was emitted for its instruction. -/
theorem Lowered.emittedFor_branch : EmittedFor context owner method l w.code.size := by
  have hsize := hbranch.size_eq
  obtain ⟨hentered, hcompared⟩ := hbranch.size_le hstage.sound
  have hmoved := (hbranch.moves hstage.sound).size_le
  exact ⟨stream, before, s, t, h.scan, hstage, by omega, by omega⟩

/-- What the stage of a jump emitted is in the end still there. -/
theorem Lowered.getElem?_of_branchStage (hk : k < w.code.size) : fin.code[k]? = w.code[k]? := by
  have hsize := hbranch.size_eq
  rw [hstage.getElem? h.run (by omega), hbranch.getElem?_of_lt hk]

/-- The code of what comes after the branch starts after it. -/
theorem Lowered.lt_position {after : List Located} (hsplit : stream.instrs = before ++ l :: after)
    {x : Located} (hx : x ∈ after) {index : Nat} (hindex : fin.positions[x.pc]? = some index) :
    w.code.size < index := by
  obtain ⟨after', hsplit', hlater⟩ := hstage.rest h.run
  obtain rfl : after = after' := by simpa [hsplit] using hsplit'
  have hsize := hbranch.size_eq
  have hle := le_position_of_mem (sound_lowerAt hstage.sound hstage.lowered) hlater hx hindex
  omega

/-- The branch has a compare of its own, right after the moves into it. -/
theorem Lowered.testsCompare_own {ty : Comparand} {args : List Operand}
    (hpush : v.code = u.code.push (.inst { kind := .compare ty, args })) :
    TestsCompare context owner method body condition u.code.size w.code.size := by
  obtain ⟨displacement, hinstr⟩ := hbranch.instr
  obtain ⟨after, hsplit, -⟩ := hstage.rest h.run
  have hmoves := hbranch.moves hstage.sound
  have hentered := (hbranch.size_le hstage.sound).1
  have hsize := hbranch.size_eq
  have hle := hmoves.size_le
  have hv : v.code.size = u.code.size + 1 := by rw [hpush, Array.size_push]
  have hown : EmittedFor context owner method l u.code.size :=
    ⟨stream, before, s, t, h.scan, hstage, hentered, by omega⟩
  refine h.testsCompare (by omega) ⟨ty, args, ?_⟩ (fun k e hik hkj he => ?_) ?_
    ⟨l, comparison, displacement, hinstr, h.emittedFor_branch hstage hbranch, .inl hown⟩
  · rw [h.getElem?_of_branchStage hstage hbranch (by omega),
      hmoves.getElem?_of_lt (by omega), hpush, Array.getElem?_push_size]
  · rw [h.getElem?_of_branchStage hstage hbranch hkj] at he
    exact hmoves.of_getElem? (by omega) he
  · intro x hx _ index hindex
    rw [hsplit] at hx
    rcases List.mem_append.mp hx with hx | hx
    · exact .inl (Nat.le_trans (hstage.position_le h.run h.nodup hx hindex) hentered)
    rcases List.mem_cons.mp hx with rfl | hx
    · rw [hstage.position_eq h.run h.nodup hbranch.enters, Option.some.injEq] at hindex
      exact .inl (Nat.le_of_eq hindex.symm)
    · exact .inr (h.lt_position hstage hbranch hsplit hx hindex)

/-- The branch looks at the flags of an earlier compare. Neither the branch nor anything after that
compare is a branch target. -/
theorem Lowered.exists_testsCompare_earlier {below : List (Option ValueType)}
    (hzero : comparison = .zero) (hsame : v.code = u.code) (hintact : u.flagsIntact = true)
    (htypes : u.types = none :: below) :
    ∃ i, TestsCompare context owner method body condition i w.code.size := by
  have htop : u.types = ([] : List ValueType).map some ++ none :: below := htypes
  obtain ⟨displacement, hinstr⟩ := hbranch.instr
  obtain ⟨huntargeted, rfl⟩ := untargeted_of_flags hbranch.enters htop
  obtain ⟨after, hsplit, -⟩ := hstage.rest h.run
  obtain ⟨earlier, between, c, start, stop, i, hlast, hcarried⟩ :=
    h.pending hstage hintact [] below htop
  have hlast' := hlast.adds ((Adds.of_code_eq hsame).trans (hbranch.moves hstage.sound))
  have hinstrs : stream.instrs = earlier ++ c :: (between ++ l :: after) := by
    rw [hsplit, hlast.split, List.append_assoc, List.cons_append]
  have hstageC : Stage (.of context owner method stream) stream.instrs earlier c start stop :=
    ⟨⟨between ++ l :: after, by rw [hinstrs]; simp⟩, hlast.reached, hlast.lowered⟩
  obtain ⟨y, hy, hposition, hstop⟩ := hlast.position
  have hstart := (maintains_enter.grows hstageC.sound hy).adds.size_le
  have hc : EmittedFor context owner method c i :=
    ⟨stream, earlier, start, stop, h.scan, hstageC, by omega, by omega⟩
  have hfeeds :=
    hcarried.feeds ((scanned_of_scan h.scan).fetch c (by rw [hinstrs]; simp)) hlast.instr
  refine ⟨i,
    h.testsCompare hlast'.lt_size ?_ (fun k e hik hkj he => ?_) ?_ ⟨l, comparison, displacement,
    hinstr, h.emittedFor_branch hstage hbranch, .inr ⟨hzero, c, hlast.instr, hc, hfeeds⟩⟩⟩
  · obtain ⟨a, b, he⟩ := hlast'.emitted
    exact ⟨.long, [a, b], by rw [h.getElem?_of_branchStage hstage hbranch hlast'.lt_size, he]⟩
  · rw [h.getElem?_of_branchStage hstage hbranch hkj] at he
    exact hlast'.moves k e hik he
  · intro x hx htarget index hindex
    have hnever : ∀ {p : Prop}, (Site.of context owner method stream).targets.contains x.pc =
        false → p :=
      fun hx => by cases htarget.symm.trans hx
    rw [hinstrs] at hx
    simp only [List.mem_append, List.mem_cons] at hx
    rcases hx with hx | rfl | hx | rfl | hx
    · have hle := hstageC.position_le h.run h.nodup hx hindex
      exact .inl (by omega)
    · rw [hstageC.position_eq h.run h.nodup hy, Option.some.injEq] at hindex
      exact .inl (by omega)
    · exact hnever (hlast.untargeted x hx)
    · exact hnever huntargeted
    · exact .inr (h.lt_position hstage hbranch hsplit hx hindex)

end Branches

/-- Every conditional jump of a method tests the flags of its compare. -/
theorem Lowered.exists_compare (h : Lowered context owner method stream fin body) {inst : Inst}
    {condition : Condition} {j : Nat} (hinst : body.code[j]? = some inst)
    (hkind : inst.kind = .jumpIf condition) :
    ∃ i, TestsCompare context owner method body condition i j := by
  obtain ⟨before, l, s, t, e, inst', marks, hstage, hs, ht, he, hresolve, rfl⟩ :=
    h.exists_stage hinst
  have hjump : e.kind = .jumpIf condition := (kind_of_resolve hresolve).symm.trans hkind
  obtain ⟨condition', goal, -, rfl⟩ := isBranchOf_of_isJump hstage hs he (by rw [hjump]; rfl)
  obtain rfl : condition' = some condition := by
    cases condition' <;> cases hjump
    rfl
  obtain ⟨comparison, u, v, w, hbranch, rfl⟩ := exists_branchStage hstage.sound hstage.lowered hs he
  rcases compare_of_lowerComparison hbranch.compares with
    ⟨ty, args, hpush⟩ | ⟨hzero, hsame, hintact, below, htypes⟩
  · exact ⟨u.code.size, h.testsCompare_own hstage hbranch hpush⟩
  · exact h.exists_testsCompare_earlier hstage hbranch hzero hsame hintact htypes

end Methods

/-! ### A method with a store between a compare and its branch -/

/-- Tells whether a long is greater than another one. -/
def exceeds : Method :=
  { name := "exceeds", descriptor := "(JJ)I", signature := ⟨[.long, .long], some .int⟩,
    access := ⟨8⟩, id := default, maxLocals := 5, maxStack := 4,
    bytecode := [0x1e, 0x20, 0x94, 0x04, 0x36, 0x04, 0x9e, 0x00, 0x05, 0x04, 0xac, 0x03, 0xac] }

/-- What `exceeds` is lowered to. -/
def exceedsBody : Body :=
  { code :=
      [{ kind := .compare .long, args := [.slot 0, .slot 2], marks := ⟨true, true⟩ },
        { kind := .move .int, dst := some (.slot 4), args := [.int 1] },
        { kind := .jumpIf .le, args := [.branch 4, .flags] },
        { kind := .ret (some .int), args := [.int 1], marks := ⟨true, false⟩ },
        { kind := .ret (some .int), args := [.int 0], marks := ⟨true, true⟩ }]
    frameSlots := 9 }

/-- The opcodes of `exceeds`. -/
theorem ofByte?_exceeds :
    Opcode.ofByte? 0x1e = some ⟨0x1e, "lload_0", 1, fun _ => .load .long 0⟩ ∧
      Opcode.ofByte? 0x20 = some ⟨0x20, "lload_2", 1, fun _ => .load .long 2⟩ ∧
      Opcode.ofByte? 0x94 = some ⟨0x94, "lcmp", 1, fun _ => .compareLong⟩ ∧
      Opcode.ofByte? 0x04 = some ⟨0x04, "iconst_1", 1, fun _ => .push (.int 1)⟩ ∧
      Opcode.ofByte? 0x03 = some ⟨0x03, "iconst_0", 1, fun _ => .push (.int 0)⟩ ∧
      Opcode.ofByte? 0x36 = some ⟨0x36, "istore", 2, fun o => .store .int (u8 o).toNat⟩ ∧
      Opcode.ofByte? 0x9e = some ⟨0x9e, "ifle", 3, fun o => .branch .zero .le (i16 o).toInt⟩ ∧
      Opcode.ofByte? 0xac = some ⟨0xac, "ireturn", 1, fun _ => .ret (some .int)⟩ :=
  ⟨rfl, rfl, rfl, rfl, rfl, rfl, rfl, rfl⟩

/-- The body of `exceeds`. -/
theorem lower_exceeds : lower countdownContext countdownOwner exceeds = .ok exceedsBody := by
  obtain ⟨hfirst, hsecond, hcompare, hone, hzero, hstore, hbranch, hret⟩ := ofByte?_exceeds
  have hforward : (i16 [0, 5]).toInt = 5 := by decide
  have hlocal : (u8 [4]).toNat = 4 := by decide
  simp [exceeds, lower, Stream.scan, split, branchTargets, Located.target?, Located.instr,
    Instr.displacement?, hfirst, hsecond, hcompare, hone, hzero, hstore, hbranch, hret,
    hforward, hlocal]
  simp [lowerAt, lowerInstr, lowerComparison, lowerStore, emitBranch, emitCompare, emitMove, emit,
    enterTarget, flush, replaceEntries, recordEntry, stackTypes, saveLocal, checkLocal, push, pop,
    popTyped,
    checkType, typeOf, consume, operandOf, releaseEntry, OperandStack.push, OperandStack.pop?,
    OperandStack.releaseEntry, OperandStack.resetTo, Entry.words, Entry.valueType?, ValueType.words,
    ValueType.isWide, Located.instr, Located.next, Site.tmpIndex, resolve, markBlocks, jumpTargets,
    markFrom, Kind.isJump, Kind.isMove, State.flagsIntact, Emitted.kind, Literal.valueType,
    exceedsBody,
    hforward, hlocal, List.mapM_cons, Std.HashMap.getElem_insert, Std.HashMap.getD_insert, ok_bind]

end SlotJit.Lowering

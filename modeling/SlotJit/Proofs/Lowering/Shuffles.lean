import SlotJit.Proofs.Lowering.Operands
import SlotJit.Proofs.Semantics.StackMachine

/-!
# Instructions on the operand stack

`Matches` compares what the stack machine does at an instruction with what the code that was emitted
for it does: both go on to the next position, both branch to the same position, or both stop in the
same way. Where they go on, the symbolic stack stands for the stack of the stack machine; where they
branch, that stack is in the merge slots. `Simulates` says that this holds of all states that the
symbolic stack stands for, and that lowering keeps its own state in order.

This module has the instructions that do nothing but push, pop and copy. Most of them emit no code
at all; a copy of a temporary is a move.
-/

namespace SlotJit.Lowering

open SlotJit.Bytecode SlotJit.Ir SlotJit.Semantics SlotJit.Tables

variable {site : Site} {r : Routine} {pc next : Nat} {target? : Option Int} {s t u v w : State}
  {exec : Environment → StackMachine.State → Step Outcome StackMachine.State} {e e₁ e₂ : Entry}
  {ty : ValueType} {a b : Unit}

/-- The stack machine and the emitted code do the same; `target?` is where the instruction may
branch. -/
def Matches (site : Site) (t : State) (flow : Flow) (next : Nat) (target? : Option Int) :
    Step Outcome StackMachine.State → Exit Nat → Prop
  | .next st, .fall core =>
    flow = .next ∧ st.pc = next ∧ st.history = core.history ∧
      Represents site t t.stack.entries st.stack st.locals core
  | .next st, .goto target core =>
    st.pc = target ∧ target?.map Int.toNat = some target ∧ st.history = core.history ∧
      ∃ types, t.entryTypes[target]? = some types ∧
        Represents site t (merged types) st.stack st.locals core
  | .halt outcome st, .halt outcome' core =>
    outcome = outcome' ∧ st.history = core.history ∧
      ∀ i < site.maxLocals.toNat, core.frame i = st.locals i
  | _, _ => False

/-- The code that lowering emitted does what the stack machine does in every state that the symbolic
stack stands for. -/
structure Simulates (site : Site) (s t : State) (flow : Flow) (pc next : Nat) (target? : Option Int)
    (exec : Environment → StackMachine.State → Step Outcome StackMachine.State) : Prop where
  positions : t.positions = s.positions
  entryTypes : ∀ (target : Nat) (types : List ValueType), s.entryTypes[target]? = some types →
    t.entryTypes[target]? = some types
  holds : Holds site t t.stack.entries
  runs : ∃ chunk, t.code.toList = s.code.toList ++ chunk ∧ ∀ env values locals core,
    Represents site s s.stack.entries values locals core →
      Matches site t flow next target? (exec env ⟨pc, locals, values, core.history⟩)
        (executeAll site.context env core chunk)

/-- A site of lowering and a routine are about the same method. -/
structure Site.Describes (site : Site) (r : Routine) : Prop where
  context : r.context = site.context
  constants : r.constants = site.constants
  maxLocals : r.maxLocals = site.maxLocals.toNat

/-! ### The operand stack -/

/-- Lowering emitted moves, and the stack machine changes nothing but its stack. -/
theorem simulates_of_moves (moves : List Emitted) (hpositions : t.positions = s.positions)
    (hentryTypes : t.entryTypes = s.entryTypes) (hholds : Holds site t t.stack.entries)
    (hcode : t.code.toList = s.code.toList ++ moves)
    (h : ∀ env values locals core, Represents site s s.stack.entries values locals core →
      ∃ core' values', executeAll site.context env core moves = .fall core' ∧
        core'.history = core.history ∧
        exec env ⟨pc, locals, values, core.history⟩ =
          .next ⟨next, locals, values', core.history⟩ ∧
        Represents site t t.stack.entries values' locals core') :
    Simulates site s t .next pc next target? exec := by
  refine ⟨hpositions, fun target types htypes => hentryTypes ▸ htypes, hholds, moves, hcode, ?_⟩
  intro env values locals core hrep
  obtain ⟨core', values', hexec, hhistory, hstep, hrep'⟩ := h env values locals core hrep
  rw [hstep, hexec]
  exact ⟨rfl, rfl, hhistory.symm, hrep'⟩

/-- Lowering emitted nothing, and the stack machine changes nothing but its stack. -/
theorem simulates_of_quiet (hs : Holds site s s.stack.entries)
    (hquiet : Quiet site s t s.stack.entries t.stack.entries)
    (h : ∀ env values locals core, Represents site s s.stack.entries values locals core →
      ∃ values', exec env ⟨pc, locals, values, core.history⟩ =
          .next ⟨next, locals, values', core.history⟩ ∧
        Represents site s t.stack.entries values' locals core) :
    Simulates site s t .next pc next target? exec := by
  refine simulates_of_moves [] hquiet.positions hquiet.entryTypes (hquiet.holds hs)
    (by rw [hquiet.code, List.append_nil]) fun env values locals core hrep => ?_
  obtain ⟨values', hstep, hrep'⟩ := h env values locals core hrep
  exact ⟨core, values', rfl, rfl, hstep, hrep'.congr hquiet.code⟩

/-- Lowering pushed an entry that holds no temporary, and the stack machine pushes its value. -/
theorem simulates_push (hs : Holds site s s.stack.entries) (h : Yields (push site pc e) s a t)
    (hty : e.valueType? = some ty) (htmp : e.tmp? = none) (hfits : e.Fits site)
    (hexec : ∀ env values locals core, Represents site s s.stack.entries values locals core →
      ∃ v, e.Denotes site core.frame v ∧ exec env ⟨pc, locals, values, core.history⟩ =
        .next ⟨next, locals, v :: values, core.history⟩) :
    Simulates site s t .next pc next target? exec := by
  obtain ⟨hentries, hquiet⟩ := quiet_pushEntry s.stack.entries h htmp hfits
  refine simulates_of_quiet hs (hentries ▸ hquiet) fun env values locals core hrep => ?_
  obtain ⟨v, hv, hstep⟩ := hexec env values locals core hrep
  refine ⟨v :: values, hstep, ?_⟩
  rw [hentries]
  exact hrep.push hty hv

/-- A constant of the pool is pushed as a literal. -/
theorem yields_push_of_lowerConstant {index : UInt16} {wide : Bool} (hr : site.Describes r)
    (h : Yields (lowerConstant site pc index wide) s a t) :
    ∃ l, StackMachine.constant? r.constants index wide = some l ∧
      Yields (push site pc (.literal l)) s a t := by
  rw [hr.constants]
  unfold lowerConstant at h
  split at h
  case h_5 => exact absurd h yields_throw
  all_goals
    rename_i hget
    exact ⟨_, by simp only [StackMachine.constant?, hget], h⟩

/-- A constant of the pool. -/
theorem simulates_constant {index : UInt16} {wide : Bool} (hr : site.Describes r)
    (hs : Holds site s s.stack.entries) (h : Yields (lowerConstant site pc index wide) s a t) :
    Simulates site s t .next pc next target? fun env st =>
      StackMachine.execute r env st next (.pushConstant index wide) := by
  obtain ⟨l, hl, hpush⟩ := yields_push_of_lowerConstant hr h
  refine simulates_push hs hpush rfl rfl trivial fun env values locals core hrep => ?_
  refine ⟨l.value, rfl, ?_⟩
  simp only [StackMachine.execute.eq_def, hl]

/-- A load. -/
theorem simulates_load {index : Nat} (hr : site.Describes r) (hs : Holds site s s.stack.entries)
    (hcheck : Yields (checkLocal site pc index ty) s a u)
    (hpush : Yields (push site pc (.localVar index ty)) u b t) :
    Simulates site s t .next pc next target? fun env st =>
      StackMachine.execute r env st next (.load ty index) := by
  obtain ⟨hindex, rfl⟩ := yields_checkLocal.mp hcheck
  have hlt : index < site.maxLocals.toNat :=
    Nat.lt_of_lt_of_le (Nat.lt_add_of_pos_right (words_pos ty)) hindex
  refine simulates_push hs hpush rfl rfl hlt fun env values locals core hrep => ?_
  refine ⟨core.frame.get ty index, rfl, ?_⟩
  have hget : locals.get ty index = core.frame.get ty index := by
    rw [Frame.get, Frame.get, hrep.frame index hlt]
  simp only [StackMachine.execute.eq_def, hr.maxLocals, if_pos hindex, hget]

/-- The value of an entry of one word takes one word. -/
theorem Entry.Denotes.narrow {frame : Frame} {v : Value} (h : e.Denotes site frame v)
    (hnarrow : ∃ ty, e.valueType? = some ty ∧ ty.isWide = false) : v.type.isWide = false := by
  obtain ⟨ty, hty, hwide⟩ := hnarrow
  rw [h.type hty, hwide]

/-- The top entry is dropped, whether of one word or of two. -/
theorem simulates_drop (hs : Holds site s s.stack.entries) (hpop : Yields (pop pc) s e u)
    (hty : e.valueType? = some ty) (hrelease : Yields (releaseEntry e) u a t)
    (hexec : ∀ env locals x rest history, x.type = ty → exec env ⟨pc, locals, x :: rest, history⟩ =
      .next ⟨next, locals, rest, history⟩) :
    Simulates site s t .next pc next target? exec := by
  obtain ⟨hentries, hpopped⟩ := quiet_pop site s.stack.entries hpop
  obtain ⟨hrest, hreleased⟩ := quiet_release site t.stack.entries hrelease
  rw [← hrest] at hentries
  refine simulates_of_quiet hs (hpopped.trans (hentries ▸ hreleased))
    fun env values locals core hrep => ?_
  rw [hentries, represents_cons hty] at hrep
  obtain ⟨v, rest, rfl, hv, hrep⟩ := hrep
  exact ⟨rest, hexec env locals v rest _ (hv.type hty), hrep⟩

/-- A swap. -/
theorem simulates_swap (hs : Holds site s s.stack.entries) (hpop₁ : Yields (popWord pc) s e₁ u)
    (hpop₂ : Yields (popWord pc) u e₂ v) (hpush₁ : Yields (push site pc e₁) v a w)
    (hpush₂ : Yields (push site pc e₂) w b t) :
    Simulates site s t .next pc next target? fun env st =>
      StackMachine.execute r env st next .swap := by
  obtain ⟨hpop₁, hnarrow₁⟩ := yields_popWord.mp hpop₁
  obtain ⟨hpop₂, hnarrow₂⟩ := yields_popWord.mp hpop₂
  obtain ⟨hentries₁, hquiet₁⟩ := quiet_pop site s.stack.entries hpop₁
  obtain ⟨hentries₂, hquiet₂⟩ := quiet_pop site s.stack.entries hpop₂
  obtain ⟨hentries₃, hquiet₃⟩ := quiet_push s.stack.entries hpush₁
  obtain ⟨hentries₄, hquiet₄⟩ := quiet_push s.stack.entries hpush₂
  have hbefore : s.stack.entries = e₁ :: e₂ :: v.stack.entries := by rw [hentries₁, hentries₂]
  have hafter : t.stack.entries = e₂ :: e₁ :: v.stack.entries := by rw [hentries₄, hentries₃]
  have hquiet := ((hquiet₁.trans hquiet₂).trans hquiet₃).trans hquiet₄
  refine simulates_of_quiet hs (hquiet.perm ?_) fun env values locals core hrep => ?_
  · rw [hbefore, hafter]
    exact .swap _ _ _
  · obtain ⟨ty₁, hty₁, -⟩ := id hnarrow₁
    obtain ⟨ty₂, hty₂, -⟩ := id hnarrow₂
    rw [hbefore, represents_cons hty₁] at hrep
    obtain ⟨x, _, rfl, hx, hrep⟩ := hrep
    obtain ⟨y, rest, rfl, hy, hrep⟩ := (represents_cons hty₂).mp hrep
    refine ⟨y :: x :: rest,
      by simp [StackMachine.execute.eq_def, hx.narrow hnarrow₁, hy.narrow hnarrow₂], ?_⟩
    rw [hafter]
    exact (hrep.push hty₁ hx).push hty₂ hy

/-- Lowering popped entries, copied some of them and pushed them again, and the stack machine
changes nothing but its stack. -/
theorem simulates_of_copies {es copies : List Entry}
    (hpopped : Quiet site s u s.stack.entries s.stack.entries)
    (hcopies : Copies site u v s.stack.entries es copies)
    (hpushed : Quiet site v t (copies ++ s.stack.entries) t.stack.entries)
    (h : ∀ env values locals core, Represents site s s.stack.entries values locals core →
      ∃ copied, List.Forall₂ (Entry.Denotes site core.frame) es copied ∧
        ∀ core', Represents site t (copies ++ s.stack.entries) (copied ++ values) locals core' →
          ∃ values', exec env ⟨pc, locals, values, core.history⟩ =
              .next ⟨next, locals, values', core.history⟩ ∧
            Represents site t t.stack.entries values' locals core') :
    Simulates site s t .next pc next target? exec := by
  obtain ⟨moves, hmoves, hruns⟩ := hcopies.runs
  refine simulates_of_moves moves ?_ ?_ (hpushed.holds hcopies.holds) ?_ ?_
  · rw [hpushed.positions, hcopies.positions, hpopped.positions]
  · rw [hpushed.entryTypes, hcopies.entryTypes, hpopped.entryTypes]
  · rw [hpushed.code, hmoves, hpopped.code]
  · intro env values locals core hrep
    obtain ⟨copied, hcopied, hafter⟩ := h env values locals core hrep
    obtain ⟨core', hexec, hhistory, hrep'⟩ :=
      hruns env values locals core copied (hrep.congr hpopped.code) hcopied
    obtain ⟨values', hstep, hrep''⟩ := hafter core' (hrep'.congr hpushed.code)
    exact ⟨core', values', hexec, hhistory, hstep, hrep''⟩

/-- A copy of the top entry, whether of one word or of two. -/
theorem simulates_dup {copy : Entry} (hs : Holds site s s.stack.entries)
    (hentries : s.stack.entries = e :: u.stack.entries) (hty : e.valueType? = some ty)
    (hpopped : Quiet site s u s.stack.entries s.stack.entries)
    (hcopy : Yields (duplicate site pc e) u copy v) (hpush₁ : Yields (push site pc e) v a w)
    (hpush₂ : Yields (push site pc copy) w b t)
    (hexec : ∀ env locals x rest history, x.type = ty → exec env ⟨pc, locals, x :: rest, history⟩ =
      .next ⟨next, locals, x :: x :: rest, history⟩) :
    Simulates site s t .next pc next target? exec := by
  have hcopies := (Copies.nil (hpopped.holds hs)).cons
    (hentries ▸ List.mem_cons_self : e ∈ s.stack.entries) hty hcopy
  obtain ⟨hentries₁, hquiet₁⟩ := quiet_push (copy :: s.stack.entries) hpush₁
  obtain ⟨hentries₂, hquiet₂⟩ := quiet_push (copy :: s.stack.entries) hpush₂
  have hafter : t.stack.entries = copy :: s.stack.entries := by
    rw [hentries₂, hentries₁, hcopies.entries, hentries]
  refine simulates_of_copies hpopped hcopies (hafter ▸ hquiet₁.trans hquiet₂) ?_
  intro env values locals core hrep
  rw [hentries, represents_cons hty] at hrep
  obtain ⟨x, rest, rfl, hx, hrep⟩ := hrep
  refine ⟨[x], .cons hx .nil, fun core' hrep' => ⟨_, hexec env locals x rest _ (hx.type hty), ?_⟩⟩
  rw [hafter]
  exact hrep'

/-- A copy below the second word. -/
theorem simulates_dupX1 {copy : Entry} {x y : State} {c : Unit} (hs : Holds site s s.stack.entries)
    (hpop₁ : Yields (popWord pc) s e₁ u) (hpop₂ : Yields (popWord pc) u e₂ v)
    (hcopy : Yields (duplicate site pc e₁) v copy w) (hpush₁ : Yields (push site pc copy) w a x)
    (hpush₂ : Yields (push site pc e₂) x b y) (hpush₃ : Yields (push site pc e₁) y c t) :
    Simulates site s t .next pc next target? fun env st =>
      StackMachine.execute r env st next .dupX1 := by
  obtain ⟨hpop₁, hnarrow₁⟩ := yields_popWord.mp hpop₁
  obtain ⟨hpop₂, hnarrow₂⟩ := yields_popWord.mp hpop₂
  obtain ⟨hentries₁, hquiet₁⟩ := quiet_pop site s.stack.entries hpop₁
  obtain ⟨hentries₂, hquiet₂⟩ := quiet_pop site s.stack.entries hpop₂
  obtain ⟨ty₁, hty₁, -⟩ := id hnarrow₁
  obtain ⟨ty₂, hty₂, -⟩ := id hnarrow₂
  have hbefore : s.stack.entries = e₁ :: e₂ :: v.stack.entries := by rw [hentries₁, hentries₂]
  have hpopped := hquiet₁.trans hquiet₂
  have hcopies := (Copies.nil (hpopped.holds hs)).cons
    (hbefore ▸ List.mem_cons_self : e₁ ∈ s.stack.entries) hty₁ hcopy
  have htyCopy : copy.valueType? = some ty₁ := by simpa [hty₁] using hcopies.types
  obtain ⟨hentries₃, hquiet₃⟩ := quiet_push (copy :: s.stack.entries) hpush₁
  obtain ⟨hentries₄, hquiet₄⟩ := quiet_push (copy :: s.stack.entries) hpush₂
  obtain ⟨hentries₅, hquiet₅⟩ := quiet_push (copy :: s.stack.entries) hpush₃
  have hafter : t.stack.entries = e₁ :: e₂ :: copy :: v.stack.entries := by
    rw [hentries₅, hentries₄, hentries₃, hcopies.entries]
  refine simulates_of_copies hpopped hcopies (((hquiet₃.trans hquiet₄).trans hquiet₅).perm ?_) ?_
  · rw [hbefore, hafter]
    exact (List.perm_append_comm_assoc [copy] [e₁, e₂] v.stack.entries)
  · intro env values locals core hrep
    rw [hbefore, represents_cons hty₁] at hrep
    obtain ⟨x, _, rfl, hx, hrep⟩ := hrep
    obtain ⟨y, rest, rfl, hy, hrep⟩ := (represents_cons hty₂).mp hrep
    refine ⟨[x], .cons hx .nil, fun core' hrep' => ⟨x :: y :: x :: rest, ?_, ?_⟩⟩
    · simp [StackMachine.execute.eq_def, hx.narrow hnarrow₁, hy.narrow hnarrow₂]
    · rw [hbefore] at hrep'
      obtain ⟨_, _, ⟨⟩, hcopied, hrep'⟩ := (represents_cons htyCopy).mp hrep'
      obtain ⟨_, _, ⟨⟩, hx', hrep'⟩ := (represents_cons hty₁).mp hrep'
      obtain ⟨_, _, ⟨⟩, hy', hrep'⟩ := (represents_cons hty₂).mp hrep'
      rw [hafter]
      exact ((hrep'.push htyCopy hcopied).push hty₂ hy').push hty₁ hx'

/-- Copies of the two topmost entries, of one word each. -/
theorem simulates_dup2 {copy₁ copy₂ : Entry} {x y z z' : State} {c d : Unit}
    (hs : Holds site s s.stack.entries) (hpop₁ : Yields (pop pc) s e₁ u)
    (hty₁ : e₁.valueType? = some ty) (hnarrow₁ : ty.isWide = false)
    (hpop₂ : Yields (popWord pc) u e₂ v)
    (hcopy₂ : Yields (duplicate site pc e₂) v copy₂ w)
    (hcopy₁ : Yields (duplicate site pc e₁) w copy₁ x)
    (hpush₁ : Yields (push site pc e₂) x a y) (hpush₂ : Yields (push site pc e₁) y b z)
    (hpush₃ : Yields (push site pc copy₂) z c z') (hpush₄ : Yields (push site pc copy₁) z' d t) :
    Simulates site s t .next pc next target? fun env st =>
      StackMachine.execute r env st next .dup2 := by
  obtain ⟨hentries₁, hquiet₁⟩ := quiet_pop site s.stack.entries hpop₁
  obtain ⟨hpop₂, hnarrow₂⟩ := yields_popWord.mp hpop₂
  obtain ⟨hentries₂, hquiet₂⟩ := quiet_pop site s.stack.entries hpop₂
  obtain ⟨ty₂, hty₂, -⟩ := id hnarrow₂
  have hbefore : s.stack.entries = e₁ :: e₂ :: v.stack.entries := by rw [hentries₁, hentries₂]
  have hpopped := hquiet₁.trans hquiet₂
  have hcopies := ((Copies.nil (hpopped.holds hs)).cons (by simp [hbefore]) hty₂ hcopy₂).cons
    (by simp [hbefore]) hty₁ hcopy₁
  obtain ⟨hentries₃, hquiet₃⟩ := quiet_push ([copy₁, copy₂] ++ s.stack.entries) hpush₁
  obtain ⟨hentries₄, hquiet₄⟩ := quiet_push ([copy₁, copy₂] ++ s.stack.entries) hpush₂
  obtain ⟨hentries₅, hquiet₅⟩ := quiet_push ([copy₁, copy₂] ++ s.stack.entries) hpush₃
  obtain ⟨hentries₆, hquiet₆⟩ := quiet_push ([copy₁, copy₂] ++ s.stack.entries) hpush₄
  have hafter : t.stack.entries = [copy₁, copy₂] ++ s.stack.entries := by
    rw [hentries₆, hentries₅, hentries₄, hentries₃, hcopies.entries, hbefore]
    rfl
  have hpushed := ((hquiet₃.trans hquiet₄).trans hquiet₅).trans hquiet₆
  refine simulates_of_copies hpopped hcopies (hafter ▸ hpushed)
    fun env values locals core hrep => ?_
  rw [hbefore, represents_cons hty₁] at hrep
  obtain ⟨x, _, rfl, hx, hrep⟩ := hrep
  obtain ⟨y, rest, rfl, hy, hrep⟩ := (represents_cons hty₂).mp hrep
  refine ⟨[x, y], .cons hx (.cons hy .nil), fun core' hrep' => ⟨x :: y :: x :: y :: rest, ?_, ?_⟩⟩
  · simp [StackMachine.execute.eq_def, hx.narrow ⟨ty, hty₁, hnarrow₁⟩, hy.narrow hnarrow₂]
  · rw [hafter]
    exact hrep'

/-- Both words that are dropped. -/
theorem simulates_pop2 (hs : Holds site s s.stack.entries) (hpop₁ : Yields (pop pc) s e₁ u)
    (hty₁ : e₁.valueType? = some ty) (hnarrow₁ : ty.isWide = false)
    (hrelease₁ : Yields (releaseEntry e₁) u a v) (hpop₂ : Yields (popWord pc) v e₂ w)
    (hrelease₂ : Yields (releaseEntry e₂) w b t) :
    Simulates site s t .next pc next target? fun env st =>
      StackMachine.execute r env st next .pop2 := by
  obtain ⟨hentries₁, hquiet₁⟩ := quiet_pop site s.stack.entries hpop₁
  obtain ⟨hentries₂, hquiet₂⟩ := quiet_release site (e₂ :: t.stack.entries) hrelease₁
  obtain ⟨hpop₂, hnarrow₂⟩ := yields_popWord.mp hpop₂
  obtain ⟨hentries₃, hquiet₃⟩ := quiet_pop site (e₂ :: t.stack.entries) hpop₂
  obtain ⟨hentries₄, hquiet₄⟩ := quiet_release site t.stack.entries hrelease₂
  obtain ⟨ty₂, hty₂, -⟩ := id hnarrow₂
  have hbefore : s.stack.entries = e₁ :: e₂ :: t.stack.entries := by
    rw [hentries₁, ← hentries₂, hentries₃, hentries₄]
  rw [hbefore] at hquiet₁
  have hquiet := ((hquiet₁.trans hquiet₂).trans hquiet₃).trans hquiet₄
  refine simulates_of_quiet hs (hbefore ▸ hquiet) fun env values locals core hrep => ?_
  rw [hbefore, represents_cons hty₁] at hrep
  obtain ⟨x, _, rfl, hx, hrep⟩ := hrep
  obtain ⟨y, rest, rfl, hy, hrep⟩ := (represents_cons hty₂).mp hrep
  refine ⟨rest, ?_, hrep⟩
  simp [StackMachine.execute.eq_def, hx.narrow ⟨ty, hty₁, hnarrow₁⟩, hy.narrow hnarrow₂]

end SlotJit.Lowering

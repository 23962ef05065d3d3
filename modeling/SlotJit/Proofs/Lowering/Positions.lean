import SlotJit.Proofs.Bytecode.Streams
import SlotJit.Proofs.Lowering.Instructions

/-!
# Lowering the instructions of a method

Lowering goes over the instructions once. A `Boundary` is the state in which it is when it comes to
lower the instruction at a position, after the stack was flushed if branches go there. Whatever way
control takes to a position at run time, it finds what this one state says: control that falls in
executes the moves of the flush, and control that branches in comes with its stack in the merge
slots, of the types that were recorded for the position.

## Main results

* `exists_boundary`: lowering that comes to a position has a boundary there, and the moves between
  lead to it.
* `boundary_of_mem`: every instruction has a boundary.
-/

namespace SlotJit.Lowering

open SlotJit.Bytecode SlotJit.Ir SlotJit.Semantics SlotJit.Tables

variable {site : Site} {r : Routine} {pc stop : Nat} {s t u : State} {l : Located}
  {rest instrs : List Located} {a : Unit}

/-! ### One position -/

/-- Fall into a position, which may be a branch target. -/
def enter (site : Site) (pc : Nat) : Lower Unit :=
  if site.targets.contains pc then enterTarget site pc else return ()

/-- Note where the code of a position starts. -/
def State.placed (s : State) (pc : Nat) : State :=
  { s with positions := s.positions.insert pc s.code.size }

/-- How lowering goes on after an instruction: with the same stack, or with the one that is known
for the next position. -/
def Resumes (s : State) (next : Nat) (t : State) : Flow → Prop
  | .next => t = s
  | .transfer =>
    ∃ stack, s.stack.resetTo (s.entryTypes.getD next []) = some stack ∧ t = { s with stack }

/-- Go on after an instruction. -/
def resume (next : Nat) (flow : Flow) : Lower Unit := do
  if flow = .transfer then
    let s ← get
    match s.stack.resetTo (s.entryTypes.getD next []) with
    | some stack => set { s with stack }
    | none => throw .releasedTwice

/-- How lowering goes on after an instruction. -/
theorem yields_resume {next : Nat} {flow : Flow} :
    Yields (resume next flow) s a t ↔ Resumes s next t flow := by
  cases flow with
  | next => simp [resume, Resumes, eq_comm]
  | transfer =>
      simp only [resume, if_true, yields_get_bind, Resumes]
      cases s.stack.resetTo (s.entryTypes.getD next []) <;> simp [eq_comm]

/-- Lowering an instruction, step by step. -/
theorem lowerAt_eq (l : Located) : lowerAt site l = (do
    enter site l.pc
    modify fun s => s.placed l.pc
    let flow ← lowerInstr site l
    resume l.next flow) := by
  unfold lowerAt enter
  split
  · rfl
  · rfl

/-- What the steps yield. -/
theorem yields_lowerAt : Yields (lowerAt site l) s a t ↔
    ∃ u v flow, Yields (enter site l.pc) s () u ∧
      Yields (lowerInstr site l) (u.placed l.pc) flow v ∧ Resumes v l.next t flow := by
  simp only [lowerAt_eq, yields_bind, yields_modify, yields_resume]
  constructor
  · rintro ⟨_, u, henter, _, _, rfl, flow, v, hlower, hresume⟩
    exact ⟨u, v, flow, henter, hlower, hresume⟩
  · rintro ⟨u, v, flow, henter, hlower, hresume⟩
    exact ⟨(), u, henter, (), _, rfl, flow, v, hlower, hresume⟩

/-- What it takes to fall into a position. -/
structure Falls (site : Site) (s t : State) (pc : Nat) : Prop where
  positions : t.positions = s.positions
  entryTypes : ∀ (pc : Nat) (known : List ValueType), s.entryTypes[pc]? = some known →
    t.entryTypes[pc]? = some known
  holds : Holds site t t.stack.entries
  home : site.targets.contains pc = true →
    ∃ types, t.stack.entries = merged types ∧ t.entryTypes[pc]? = some types
  runs : ∃ moves, t.code.toList = s.code.toList ++ moves ∧ ∀ env values locals core,
    Represents site s s.stack.entries values locals core →
      ∃ core', executeAll site.context env core moves = .fall core' ∧
        core'.history = core.history ∧ Represents site t t.stack.entries values locals core'

/-- Entering a block falls into it. -/
theorem falls_of_enter (hs : Holds site s s.stack.entries) (h : Yields (enter site pc) s a t) :
    Falls site s t pc := by
  unfold enter at h
  cases htarget : site.targets.contains pc with
  | true =>
      rw [htarget, if_pos rfl, enterTarget] at h
      obtain ⟨_, u, hflush, hrecord⟩ := yields_bind.mp h
      obtain ⟨types, henters⟩ := enters_of_flush hs hflush hrecord
      obtain ⟨moves, hmoves, hruns⟩ := henters.runs
      refine ⟨henters.positions, henters.entryTypes, henters.holds,
        fun _ => ⟨types, henters.entries, henters.recorded⟩, moves, hmoves, ?_⟩
      intro env values locals core hrep
      obtain ⟨core', hexec, -, hhistory, hrep'⟩ := hruns env values locals core hrep
      exact ⟨core', hexec, hhistory, hrep'⟩
  | false =>
      rw [htarget] at h
      obtain ⟨-, rfl⟩ := yields_pure.mp h
      refine ⟨rfl, fun _ _ => id, hs, fun htrue => (nomatch htarget.symm.trans htrue), [],
        (List.append_nil _).symm, ?_⟩
      exact fun env values locals core hrep => ⟨core, rfl, rfl, hrep⟩

/-- All entries are given up. -/
theorem Tidy.releaseAll {stack stack' : OperandStack} {es held : List Entry}
    (h : Tidy site stack (es ++ held))
    (hrelease : es.foldlM OperandStack.releaseEntry stack = some stack') :
    Tidy site stack' held := by
  induction es generalizing stack with
  | nil =>
      cases hrelease
      exact h
  | cons e es ih =>
      obtain ⟨stack₁, hfirst, hrest⟩ := Option.bind_eq_some_iff.mp hrelease
      exact ih (h.release hfirst) hrest

/-- The entries of a stack in the merge slots fit, if the stack does. -/
theorem tidy_merged {stack : OperandStack} {types : List ValueType} (h : Tidy site stack [])
    (hdepth : (types.map ValueType.words).sum ≤ site.maxStack.toNat) :
    Tidy site stack (merged types) := by
  have hmem : ∀ e ∈ merged types, ∃ depth ty, e = .merge depth ty ∧ depth < types.length := by
    intro e he
    obtain ⟨⟨ty, depth⟩, hpair, rfl⟩ := List.mem_map.mp (List.mem_reverse.mp he)
    exact ⟨depth, ty, rfl, by simpa using (List.mem_zipIdx hpair).2.1⟩
  have hlength : types.length ≤ site.maxStack.toNat := by
    have hwords := length_le_words (merged types)
    rw [words_merged] at hwords
    simp only [merged, List.length_reverse, List.length_map, List.length_zipIdx] at hwords
    omega
  refine ⟨?_, fun e he => ?_⟩
  · have hnone : heldTmps (merged types) = [] := by
      refine List.filterMap_eq_nil_iff.mpr fun e he => ?_
      obtain ⟨depth, ty, rfl, -⟩ := hmem e he
      rfl
    rw [hnone]
    exact h.owned
  · obtain ⟨depth, ty, rfl, hlt⟩ := hmem e he
    exact Nat.lt_of_lt_of_le hlt hlength

/-- A stack after it was reset. -/
theorem resetTo_eq {stack stack' : OperandStack} {types : List ValueType}
    (h : stack.resetTo types = some stack') :
    ∃ released, stack.entries.reverse.foldlM OperandStack.releaseEntry stack = some released ∧
      stack' =
        { released with entries := merged types, words := (types.map ValueType.words).sum } := by
  obtain ⟨released, hrelease, hstack⟩ := Option.bind_eq_some_iff.mp h
  refine ⟨released, hrelease, ?_⟩
  rw [← Option.some.inj hstack, ← words_merged, merged, List.map_reverse, List.sum_reverse]
  simp only [List.sum_eq_foldr, List.foldr_map]

/-- Lowering goes on in order. -/
theorem Holds.resume {next : Nat} {flow : Flow} (hs : Holds site s s.stack.entries)
    (h : Resumes s next t flow) : Holds site t t.stack.entries ∧ t.code = s.code ∧
      t.positions = s.positions ∧ t.entryTypes = s.entryTypes := by
  cases flow with
  | next =>
      obtain rfl := h
      exact ⟨hs, rfl, rfl, rfl⟩
  | transfer =>
      obtain ⟨stack, hreset, rfl⟩ := h
      obtain ⟨released, hrelease, rfl⟩ := resetTo_eq hreset
      have hall : Tidy site s.stack (s.stack.entries.reverse ++ []) := by
        rw [List.append_nil]
        exact hs.tidy.perm (List.reverse_perm _).symm
      have hdepth :
          ((s.entryTypes.getD next []).map ValueType.words).sum ≤ site.maxStack.toNat := by
        rw [Std.HashMap.getD_eq_getD_getElem?]
        cases hknown : s.entryTypes[next]? with
        | none => exact Nat.zero_le _
        | some types => exact hs.recorded next types hknown
      refine ⟨⟨?_, (words_merged _).symm, hdepth, hs.recorded⟩, rfl, rfl, rfl⟩
      exact (tidy_merged (hall.releaseAll hrelease) hdepth).congr rfl rfl

/-! ### All positions -/

/-- Lowering went on in order: it only added to the code and to what it knows of branch targets, and
noted nothing but the given positions. -/
structure Advances (site : Site) (s t : State) (pcs : List Nat) : Prop where
  holds : Holds site t t.stack.entries
  code : s.code.toList <+: t.code.toList
  entryTypes : ∀ (pc : Nat) (known : List ValueType), s.entryTypes[pc]? = some known →
    t.entryTypes[pc]? = some known
  positions : ∀ pc ∉ pcs, t.positions[pc]? = s.positions[pc]?

/-- What lowering needs to know of an instruction. -/
def Sensible (l : Located) : Prop := ∀ target, l.target? = some target → 0 ≤ target

/-- Lowering an instruction advances past it. -/
theorem advances_lowerAt (hr : site.Describes r) (hctx : Positioned site.context) (hl : Sensible l)
    (hs : Holds site s s.stack.entries) (h : Yields (lowerAt site l) s a t) :
    Advances site s t [l.pc] := by
  obtain ⟨u, v, flow, henter, hlower, hresume⟩ := yields_lowerAt.mp h
  have hfalls := falls_of_enter hs henter
  have hplaced : Holds site (u.placed l.pc) (u.placed l.pc).stack.entries :=
    hfalls.holds.congr rfl rfl
  have hsimulates := simulates_lowerInstr hr hctx hl hplaced hlower
  obtain ⟨ht, hcode, hpositions, hentryTypes⟩ := hsimulates.holds.resume hresume
  obtain ⟨moves, hmoves, -⟩ := hfalls.runs
  obtain ⟨chunk, hchunk, -⟩ := hsimulates.runs
  refine ⟨ht, ?_, ?_, ?_⟩
  · rw [hcode, hchunk]
    exact ⟨moves ++ chunk, by rw [← List.append_assoc, ← hmoves]; rfl⟩
  · intro pc known hknown
    rw [hentryTypes]
    exact hsimulates.entryTypes pc known (hfalls.entryTypes pc known hknown)
  · intro pc hpc
    have hne : (l.pc == pc) = false :=
      beq_eq_false_iff_ne.mpr fun heq => hpc (heq ▸ List.mem_singleton_self _)
    rw [hpositions, hsimulates.positions, ← hfalls.positions]
    simp [State.placed, Std.HashMap.getElem?_insert, hne]

/-- The first instruction, then the others. -/
theorem yields_forM_cons {f : Located → Lower Unit} :
    Yields ((l :: rest).forM f) s a t ↔ ∃ u, Yields (f l) s () u ∧ Yields (rest.forM f) u a t := by
  show Yields (f l >>= fun _ => rest.forM f) s a t ↔ _
  rw [yields_bind]
  exact ⟨fun ⟨_, u, hfirst, hrest⟩ =>
    ⟨u, hfirst, hrest⟩, fun ⟨u, hfirst, hrest⟩ => ⟨(), u, hfirst, hrest⟩⟩

/-- Lowering instructions advances past all of them. -/
theorem advances_forM (hr : site.Describes r) (hctx : Positioned site.context)
    (hinstrs : ∀ l ∈ instrs, Sensible l) (hs : Holds site s s.stack.entries)
    (h : Yields (instrs.forM (lowerAt site)) s a t) :
    Advances site s t (instrs.map Located.pc) := by
  induction instrs generalizing s with
  | nil =>
      obtain ⟨-, rfl⟩ := yields_pure.mp h
      exact ⟨hs, List.prefix_refl _, fun _ _ => id, fun _ _ => rfl⟩
  | cons l rest ih =>
      obtain ⟨u, hfirst, hrest⟩ := yields_forM_cons.mp h
      have hu := advances_lowerAt hr hctx (hinstrs l List.mem_cons_self) hs hfirst
      have ht := ih (fun l hl => hinstrs l (List.mem_cons_of_mem _ hl)) hu.holds hrest
      refine ⟨ht.holds, hu.code.trans ht.code, fun pc known hknown =>
        ht.entryTypes pc known (hu.entryTypes pc known hknown), fun pc hpc => ?_⟩
      rw [List.map_cons, List.mem_cons, not_or] at hpc
      rw [ht.positions pc hpc.2, hu.positions pc (by simpa using hpc.1)]

/-- Lowering some instructions and then others. -/
theorem yields_forM_append {f : Located → Lower Unit} {first second : List Located} :
    Yields ((first ++ second).forM f) s a t ↔
      ∃ u, Yields (first.forM f) s () u ∧ Yields (second.forM f) u a t := by
  induction first generalizing s with
  | nil =>
      exact ⟨fun h =>
        ⟨s, yields_pure.mpr ⟨rfl, rfl⟩, h⟩, fun ⟨u, hu, h⟩ => (yields_pure.mp hu).2 ▸ h⟩
  | cons l first ih =>
      simp only [List.cons_append, yields_forM_cons, ih]
      exact ⟨fun ⟨u, hu, v, hv, h⟩ =>
        ⟨v, ⟨u, hu, hv⟩, h⟩, fun ⟨v, ⟨u, hu, hv⟩, h⟩ => ⟨u, hu, v, hv, h⟩⟩

/-- Lowering, about to end in `fin`, is at a position: either at the end or about to lower the
instruction there. -/
def Continues (site : Site) (fin s : State) (pc : Nat) : List Located → Prop
  | [] => s.code = fin.code
  | l :: rest =>
    (site.targets.contains pc = true →
      ∃ types, s.stack.entries = merged types ∧ fin.entryTypes[pc]? = some types) ∧
    ∃ flow u t, Yields (lowerInstr site l) s flow u ∧ Resumes u l.next t flow ∧
      Yields (rest.forM (lowerAt site)) t () fin

/-- The index of the code of a position, or of the end of the code. -/
def State.place (s : State) (pc : Nat) : Nat := s.positions[pc]?.getD s.code.size

/-- The state of lowering at a position, with the instructions from there on. -/
structure Boundary (site : Site) (fin : State) (instrs : List Located) (stop : Nat)
    (rest : List Located) (pc : Nat) (s : State) : Prop where
  suffix : rest <:+ instrs
  contiguous : Contiguous pc rest stop
  holds : Holds site s s.stack.entries
  code : s.code.toList <+: fin.code.toList
  place : fin.place pc = s.code.size
  continues : Continues site fin s pc rest

/-- Instructions that follow come later. -/
theorem le_of_contiguous (h : Contiguous pc rest stop) (hrest : ∀ l ∈ rest, l.pc < l.next) :
    pc ≤ stop ∧ ∀ l ∈ rest, pc ≤ l.pc ∧ l.pc < stop := by
  induction h with
  | nil pc => exact ⟨Nat.le_refl pc, fun l hl => nomatch hl⟩
  | cons l _ ih =>
      obtain ⟨hstop, hlater⟩ := ih fun l hl => hrest l (List.mem_cons_of_mem _ hl)
      have hlt := hrest l List.mem_cons_self
      refine ⟨by omega, fun l' hl' => ?_⟩
      rcases List.mem_cons.mp hl' with rfl | hl'
      · omega
      · have := hlater l' hl'
        omega

/-- Lowering that comes to a position has a boundary there, and the moves in between lead to it. -/
theorem exists_boundary {fin : State} (hr : site.Describes r) (hctx : Positioned site.context)
    (hsuffix : rest <:+ instrs) (hcontiguous : Contiguous pc rest stop)
    (hinstrs : ∀ l ∈ instrs, Sensible l ∧ l.pc < l.next) (hs : Holds site s s.stack.entries)
    (hstop : fin.positions[stop]? = none) (h : Yields (rest.forM (lowerAt site)) s () fin) :
    ∃ t, Boundary site fin instrs stop rest pc t ∧ ∃ moves, t.code.toList = s.code.toList ++ moves ∧
      ∀ env values locals core, Represents site s s.stack.entries values locals core →
        ∃ core', executeAll site.context env core moves = .fall core' ∧
          core'.history = core.history ∧ Represents site t t.stack.entries values locals core' := by
  have hsensible : ∀ l ∈ rest, Sensible l ∧ l.pc < l.next :=
    fun l hl => hinstrs l (hsuffix.subset hl)
  cases hcontiguous with
  | nil =>
      obtain ⟨-, rfl⟩ := yields_pure.mp h
      refine ⟨s, ⟨hsuffix, .nil pc, hs, List.prefix_refl _, ?_, rfl⟩, [],
        (List.append_nil _).symm, ?_⟩
      · rw [State.place, hstop, Option.getD_none]
      · exact fun env values locals core hrep => ⟨core, rfl, rfl, hrep⟩
  | cons l hcontiguous =>
      rename_i rest
      obtain ⟨t, hfirst, hrest⟩ := yields_forM_cons.mp h
      obtain ⟨u, v, flow, henter, hlower, hresume⟩ := yields_lowerAt.mp hfirst
      have hfalls := falls_of_enter hs henter
      have hplaced : Holds site (u.placed l.pc) (u.placed l.pc).stack.entries :=
        hfalls.holds.congr rfl rfl
      have hsimulates :=
        simulates_lowerInstr hr hctx (hsensible l List.mem_cons_self).1 hplaced hlower
      obtain ⟨ht, hcode, hpositions, hentryTypes⟩ := hsimulates.holds.resume hresume
      have hadvances := advances_forM hr hctx
        (fun l hl => (hsensible l (List.mem_cons_of_mem _ hl)).1) ht hrest
      obtain ⟨moves, hmoves, hruns⟩ := hfalls.runs
      obtain ⟨chunk, hchunk, -⟩ := hsimulates.runs
      refine ⟨u.placed l.pc, ⟨hsuffix, .cons l hcontiguous, hplaced, ?_, ?_, ?_, flow, v, t, hlower,
        hresume, hrest⟩, moves, hmoves, ?_⟩
      · have hemitted : (u.placed l.pc).code.toList <+: v.code.toList := ⟨chunk, hchunk.symm⟩
        exact hemitted.trans (hcode ▸ hadvances.code)
      · have hlater : l.pc ∉ rest.map Located.pc := by
          intro hmem
          obtain ⟨l', hl', heq⟩ := List.mem_map.mp hmem
          have hnext := (le_of_contiguous hcontiguous fun l hl =>
            (hsensible l (List.mem_cons_of_mem _ hl)).2).2 l' hl'
          have hlt := (hsensible l List.mem_cons_self).2
          omega
        rw [State.place, hadvances.positions _ hlater, hpositions, hsimulates.positions]
        simp [State.placed]
      · intro htarget
        obtain ⟨types, hentries, hknown⟩ := hfalls.home htarget
        refine ⟨types, hentries, hadvances.entryTypes _ _ ?_⟩
        rw [hentryTypes]
        exact hsimulates.entryTypes _ _ hknown
      · intro env values locals core hrep
        obtain ⟨core', hexec, hhistory, hrep'⟩ := hruns env values locals core hrep
        exact ⟨core', hexec, hhistory, hrep'.congr rfl⟩

/-- Instructions from one on follow one another too. -/
theorem contiguous_of_append {first : List Located} (h : Contiguous pc (first ++ l :: rest) stop) :
    Contiguous l.pc (l :: rest) stop := by
  obtain ⟨cut, -, hrest⟩ := h.exists_append
  cases hrest with
  | cons _ hrest => exact .cons l hrest

/-- No two instructions are at one position. -/
theorem nodup_of_contiguous (h : Contiguous pc instrs stop)
    (hinstrs : ∀ l ∈ instrs, l.pc < l.next) : (instrs.map Located.pc).Nodup := by
  induction h with
  | nil => exact List.nodup_nil
  | @cons l rest _ h ih =>
      have hrest : ∀ l ∈ rest, l.pc < l.next := fun l hl => hinstrs l (List.mem_cons_of_mem _ hl)
      refine List.nodup_cons.mpr ⟨fun hl => ?_, ih hrest⟩
      obtain ⟨l', hl', hpc⟩ := List.mem_map.mp hl
      have hnext := ((le_of_contiguous h hrest).2 l' hl').1
      have hlt := hinstrs l List.mem_cons_self
      omega

/-- Every instruction has a boundary. -/
theorem boundary_of_mem {fin : State} (hr : site.Describes r) (hctx : Positioned site.context)
    (hcontiguous : Contiguous pc instrs stop) (hinstrs : ∀ l ∈ instrs, Sensible l ∧ l.pc < l.next)
    (hs : Holds site s s.stack.entries) (hstop : fin.positions[stop]? = none)
    (h : Yields (instrs.forM (lowerAt site)) s () fin) (hl : l ∈ instrs) :
    ∃ rest t, Boundary site fin instrs stop (l :: rest) l.pc t := by
  obtain ⟨first, rest, rfl⟩ := List.append_of_mem hl
  obtain ⟨u, hfirst, hrest⟩ := yields_forM_append.mp h
  have hu := advances_forM hr hctx (fun l hl => (hinstrs l (List.mem_append_left _ hl)).1) hs hfirst
  obtain ⟨t, hboundary, -⟩ := exists_boundary hr hctx (List.suffix_append first (l :: rest))
    (contiguous_of_append hcontiguous) hinstrs hu.holds hstop hrest
  exact ⟨rest, t, hboundary⟩

end SlotJit.Lowering

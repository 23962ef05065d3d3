import SlotJit.Proofs.Lowering.Forms

/-!
# Where lowered code comes from

The code of a method is emitted in stages, one for each instruction of the bytecode in turn. A stage
emits the moves of the flushes that it performs, what belongs to the instruction itself, and at the
end of a branch the branch. Which of these an emitted instruction is shows in where it writes: what
belongs to an instruction goes to temporaries, or to the local variable that the instruction
assigns, and merge slots are left to flushes.

## Main results

* `origin_of_lowerAt`: what one stage emits.
* `exists_stage`: the stage that an instruction of the code comes from.
* `Stage.position_le`, `Stage.position_eq`, `le_position_of_mem`: where the code of a position
  starts, before a stage, in it and after it.
-/

namespace SlotJit.Lowering

open SlotJit.Bytecode SlotJit.Ir SlotJit.Semantics SlotJit.Tables

variable {site : Site} {l : Located} {instrs : List Located} {pc k index : Nat} {s t u fin : State}
  {e : Emitted} {kind : Kind} {a : Unit} {condition : Option Condition} {displacement : Int}

/-! ### What belongs to an instruction -/

/-- The instruction assigns to a local variable. -/
def Assigns (index : Nat) : Instr → Prop
  | .store _ target | .increment target _ => target = index
  | _ => False

/-- What an instruction emits for itself is no jump and writes to a temporary, or to the local
variable that the instruction assigns. Only calls have many operands. -/
def Emitted.Own (site : Site) (l : Located) : Emitted → Prop
  | .inst i => i.kind.isJump = false ∧
      (i.args.length ≤ 3 ∨ ∃ index, l.instr = .invokeStatic index) ∧
      ∀ index, i.dst = some (.slot index) → index < site.maxLocals.toNat ∧ Assigns index l.instr ∨
        site.maxLocals.toNat + site.maxStack.toNat ≤ index
  | .branch .. => False

/-- A move to a merge slot or to a temporary, as a flush makes them. -/
def Emitted.Shifts (site : Site) : Emitted → Prop
  | .inst i => i.kind.isMove = true ∧ i.args.length ≤ 3 ∧
      ∀ index, i.dst = some (.slot index) → site.maxLocals.toNat ≤ index
  | .branch .. => False

/-- Nothing but a branch names where to go. -/
def Emitted.Aimless : Emitted → Prop
  | .inst i => i.kind.isJump = false ∧ ∀ target, .branch target ∉ i.args
  | .branch .. => True

theorem aimless_of_args {dst : Option Operand} {args : List Operand} (hkind : kind.isJump = false)
    (hargs : ∀ a ∈ args, ∀ target, a ≠ .branch target) :
    Emitted.Aimless (.inst { kind, dst, args }) :=
  ⟨hkind, fun target hmem => hargs _ hmem target rfl⟩

/-- The moves of a flush. -/
theorem Emitted.Shift.shifts {e : Emitted} (h : e.Shift site) : e.Shifts site := by
  rcases h with ⟨ty, tmp, src, -, rfl⟩ | ⟨ty, depth, src, -, rfl⟩
  · refine ⟨rfl, by simp, fun index hdst => ?_⟩
    cases hdst
    simp only [Site.tmpIndex]
    omega
  · refine ⟨rfl, by simp, fun index hdst => ?_⟩
    cases hdst
    exact Nat.le_add_right _ _

/-- Moves name no place to go to. -/
theorem aimless_moveTo {ty : ValueType} {src : Operand} (hsrc : Stands site ty src) :
    (moveTo ty index src).Aimless := by
  refine aimless_of_args rfl fun a ha => ?_
  rw [List.mem_singleton.mp ha]
  exact hsrc.ne_branch

/-- The moves of a flush name no place to go to. -/
theorem Emitted.Shift.aimless {e : Emitted} (h : e.Shift site) : e.Aimless := by
  rcases h with ⟨ty, index, src, hsrc, rfl⟩ | ⟨ty, depth, src, hsrc, rfl⟩
  · exact aimless_moveTo hsrc
  · exact aimless_moveTo hsrc

/-- Operands that stand for entries name no place to go to. -/
theorem ne_branch_of_stands {types : List ValueType} {args : List Operand}
    (h : List.Forall₂ (Stands site) types args) : ∀ a ∈ args, ∀ target, a ≠ .branch target := by
  intro a ha
  obtain ⟨ty, -, hstands⟩ := exists_of_forall₂ h ha
  exact hstands.ne_branch

/-- Of all that an instruction emits, only its branch names a place to go to. -/
theorem Emitted.From.aimless {e : Emitted} (h : e.From site l) : e.Aimless := by
  cases h with
  | shift _ h => exact h.aimless
  | branch h =>
      obtain ⟨_, _, -, rfl⟩ := h
      trivial
  | issued h =>
      cases h with
      | spill h => exact Emitted.Shift.aimless (.inl h)
      | store _ _ hsrc => exact aimless_moveTo hsrc
      | increment => exact aimless_of_args rfl (by simp)
      | @operation kind front args op index hl hargs =>
          refine aimless_of_args (kind_of_performs hl).1 fun a ha => ?_
          rcases List.mem_append.mp ha with ha | ha
          · rcases front_of_performs hl with ⟨rfl, -⟩ | ⟨_, _, -, rfl⟩
            · cases ha
            · rw [List.mem_singleton.mp ha]
              exact fun _ => nofun
          · exact ne_branch_of_stands hargs a ha
      | compare _ ha hb => exact aimless_of_args rfl (by simp [ha.ne_branch, hb.ne_branch])
      | ret _ hargs => exact aimless_of_args rfl (ne_branch_of_stands hargs)

/-- What an instruction emits for itself writes where it may. -/
theorem Emitted.Issued.own {e : Emitted} (h : e.Issued site l) : e.Own site l := by
  have htmp {tmp index : Nat} (hdst : some (site.tmpSlot tmp) = some (.slot index)) :
      site.maxLocals.toNat + site.maxStack.toNat ≤ index := by
    cases hdst
    exact Nat.le_add_right _ _
  cases h with
  | spill h =>
      obtain ⟨ty, tmp, src, -, rfl⟩ := h
      exact ⟨rfl, .inl (by simp), fun index hdst => .inr (htmp hdst)⟩
  | store hl hindex =>
      refine ⟨rfl, .inl (by simp), fun index hdst => .inl ?_⟩
      cases hdst
      exact ⟨hindex, by rw [hl]; rfl⟩
  | increment hl hindex =>
      refine ⟨rfl, .inl (by simp [addTo]), fun index hdst => .inl ?_⟩
      cases hdst
      exact ⟨hindex, by rw [hl]; rfl⟩
  | @operation kind front args op index hl hargs =>
      refine ⟨(kind_of_performs hl).1, ?_, fun slot hdst => .inr ?_⟩
      · rcases front_of_performs hl with ⟨rfl, hfew⟩ | ⟨index, _, hinstr, -⟩
        · exact .inl (by simpa [← hargs.length_eq] using hfew)
        · exact .inr ⟨index, hinstr⟩
      · obtain ⟨_, -, hslot⟩ := Option.map_eq_some_iff.mp hdst
        exact htmp (congrArg some hslot)
  | compare => exact ⟨rfl, .inl (by simp), fun index hdst => by cases hdst⟩
  | @ret ty args hl hargs =>
      refine ⟨rfl, .inl ?_, fun index hdst => by cases hdst⟩
      rw [← hargs.length_eq]
      cases ty <;> simp

/-- All that an instruction emits belongs to it, unless it branches. -/
theorem own_lowerInstr {flow : Flow} (hs : Orderly site s) (hl : l.instr.displacement? = none)
    (h : Yields (lowerInstr site l) s flow t) : Adds (Emitted.Own site l) s t :=
  (maintains_lowerInstr.grows hs h).adds.mono fun _ he => (he.issued_of_next hl).own

/-- The compare of a branch belongs to it. -/
theorem own_lowerComparison (l : Located) {comparison : Comparison} :
    Maintains site pc (Emitted.Own site l) (lowerComparison site pc comparison) :=
  maintains_lowerComparison fun _ _ _ _ _ =>
    ⟨rfl, .inl (by simp), fun _ hdst => by cases hdst⟩

/-- A flush emits moves and nothing else. -/
theorem shifts_flush : Maintains site pc (Emitted.Shifts site) (flush site pc) :=
  keeps_flush fun _ => Emitted.Shift.shifts

/-! ### Stages -/

theorem yields_emitBranch :
    Yields (emitBranch site pc condition displacement) s a t ↔
      ∃ u v, Yields (flush site pc) s () u ∧
      Yields (recordEntry pc (pc + displacement).toNat) u () v ∧
      t = { v with code := v.code.push (.branch condition pc (pc + displacement).toNat) } := by
  simp only [emitBranch, yields_bind, yields_modify]
  constructor
  · rintro ⟨_, u, hflush, _, v, hrecord, rfl⟩
    exact ⟨u, v, hflush, hrecord, rfl⟩
  · rintro ⟨u, v, hflush, hrecord, rfl⟩
    exact ⟨(), u, hflush, (), v, hrecord, rfl⟩

/-- Going on with the next instruction emits nothing. -/
theorem Resumes.same {next : Nat} {flow : Flow} (h : Resumes s next t flow) :
    t.code = s.code ∧ t.positions = s.positions := by
  cases flow with
  | next =>
      cases h
      exact ⟨rfl, rfl⟩
  | transfer =>
      obtain ⟨stack, -, rfl⟩ := h
      exact ⟨rfl, rfl⟩

/-- The flushes that lowering an instruction performs: one before a branch target, and one before it
branches. -/
inductive Flushes (site : Site) (l : Located) (s : State) : State → State → Prop
  | enter {t : State} (htarget : site.targets.contains l.pc = true)
      (hflush : Yields (flush site l.pc) s () t) : Flushes site l s s t
  | jump {displacement : Int} {u t : State} (hinstr : l.instr = .jump displacement)
      (henter : Yields (enter site l.pc) s () u)
      (hflush : Yields (flush site l.pc) (u.placed l.pc) () t) : Flushes site l s (u.placed l.pc) t
  | branch {comparison : Comparison} {condition : Condition} {displacement : Int} {u v t : State}
      (hinstr : l.instr = .branch comparison condition displacement)
      (henter : Yields (enter site l.pc) s () u)
      (hcompare : Yields (lowerComparison site l.pc comparison) (u.placed l.pc) () v)
      (hflush : Yields (flush site l.pc) v () t) : Flushes site l s v t

/-- An emitted instruction at an index was emitted by a flush of an instruction. -/
def Flushed (site : Site) (l : Located) (s : State) (k : Nat) : Prop :=
  ∃ u v, Flushes site l s u v ∧ u.code.size ≤ k ∧ k < v.code.size

theorem code_of_recordEntry {target : Nat} (h : Yields (recordEntry pc target) s a t) :
    t.code = s.code := by
  obtain ⟨types, -, ⟨-, rfl⟩ | ⟨-, rfl⟩⟩ := yields_recordEntry.mp h
  · rfl
  · rfl

/-- Before it branches, code only grows. -/
theorem grows_emitBranch (hs : Orderly site s)
    (h : Yields (emitBranch site pc condition displacement) s a t) : Grows (fun _ => True) s t :=
  (keeps_emitBranch (fun _ _ => trivial) trivial).grows hs h

/-- What is emitted between a flush and the end of a stage: the moves of the flush, and the
branch. -/
theorem origin_of_emitBranch (hs : Orderly site s)
    (h : Yields (emitBranch site l.pc condition displacement) s a t)
    (hl : l.instr.displacement? = some displacement) (hk : s.code.size ≤ k)
    (he : t.code[k]? = some e) :
    (∃ u, Yields (flush site l.pc) s () u ∧ k < u.code.size ∧ e.Shifts site) ∨ IsBranchOf l e := by
  obtain ⟨u, v, hflush, hrecord, rfl⟩ := yields_emitBranch.mp h
  rw [code_of_recordEntry hrecord, Array.getElem?_push] at he
  split at he
  · cases he
    exact .inr ⟨condition, l.pc + displacement, by rw [Located.target?, hl, Option.map_some], rfl⟩
  · exact .inl ⟨u, hflush, (Array.getElem?_eq_some_iff.mp he).1,
      (shifts_flush.grows hs hflush).adds.of_getElem? hk he⟩

/-- What lowering an instruction emits is from one of its flushes, belongs to it, or is its
branch. -/
theorem origin_of_lowerAt (hs : Orderly site s) (h : Yields (lowerAt site l) s a t)
    (hk : s.code.size ≤ k) (he : t.code[k]? = some e) :
    Flushed site l s k ∧ e.Shifts site ∨ e.Own site l ∨ IsBranchOf l e := by
  obtain ⟨u, v, flow, henter, hlower, hresume⟩ := yields_lowerAt.mp h
  obtain ⟨hentered, hshifts⟩ := maintains_enter.yields s () u hs henter
  have hu : Orderly site (u.placed l.pc) := hentered.placed l.pc
  have hlowered := (maintains_lowerInstr.grows hu hlower).adds
  rw [hresume.same.1] at he
  by_cases hbefore : k < u.code.size
  · -- The moves that fall into a branch target.
    have hsame : u.code[k]? = some e := by
      rw [← he]
      exact (hlowered.getElem?_of_lt hbefore).symm
    unfold enter at henter
    split at henter
    · rename_i htarget
      obtain ⟨_, w, hflush, hrecord⟩ := yields_bind.mp henter
      have hlt : k < w.code.size := code_of_recordEntry hrecord ▸ hbefore
      exact .inl ⟨⟨s, w, .enter htarget hflush, hk, hlt⟩,
        (hshifts.adds.of_getElem? hk hsame).shifts⟩
    · obtain ⟨-, rfl⟩ := yields_pure.mp henter
      exact absurd hbefore (Nat.not_lt.mpr hk)
  rw [Nat.not_lt] at hbefore
  by_cases hl : l.instr.displacement? = none
  · exact .inr (.inl ((own_lowerInstr hu hl hlower).of_getElem? hbefore he))
  cases hinstr : l.instr with
  | branch comparison condition displacement =>
      simp only [lowerInstr, hinstr, yields_bind, yields_pure] at hlower
      obtain ⟨_, w, hcompare, _, _, hbranch, -, rfl⟩ := hlower
      obtain ⟨hw, howns⟩ := (own_lowerComparison l).yields _ () w hu hcompare
      by_cases hown : k < w.code.size
      · have hsame : w.code[k]? = some e := by
          rw [← he]
          exact ((grows_emitBranch hw hbranch).adds.getElem?_of_lt hown).symm
        exact .inr (.inl (howns.adds.of_getElem? hbefore hsame))
      · rw [Nat.not_lt] at hown
        rcases origin_of_emitBranch hw hbranch (by rw [hinstr]; rfl) hown he with
          ⟨x, hflush, hlt, hshifts⟩ | hbr
        · exact .inl ⟨⟨w, x, .branch hinstr henter hcompare hflush, hown, hlt⟩, hshifts⟩
        · exact .inr (.inr hbr)
  | jump displacement =>
      simp only [lowerInstr, hinstr, yields_bind, yields_pure] at hlower
      obtain ⟨_, _, hbranch, -, rfl⟩ := hlower
      rcases origin_of_emitBranch hu hbranch (by rw [hinstr]; rfl) hbefore he with
        ⟨x, hflush, hlt, hshifts⟩ | hbr
      · exact .inl ⟨⟨_, x, .jump hinstr henter hflush, hbefore, hlt⟩, hshifts⟩
      · exact .inr (.inr hbr)
  | _ => exact absurd (by rw [hinstr]; rfl) hl

/-! ### Positions -/

/-- The code of a position starts where the moves into it end. -/
theorem positions_of_lowerAt (hs : Orderly site s) (h : Yields (lowerAt site l) s a t)
    (henter : Yields (enter site l.pc) s () u) :
    t.positions = s.positions.insert l.pc u.code.size ∧ s.code.size ≤ u.code.size ∧
      u.code.size ≤ t.code.size := by
  obtain ⟨v, w, flow, henter', hlower, hresume⟩ := yields_lowerAt.mp h
  obtain rfl : v = u := (henter'.unique henter).2
  obtain ⟨hcode, hpositions⟩ := hresume.same
  obtain ⟨hu, hentered⟩ := maintains_enter.yields s () v hs henter
  have hlowered := maintains_lowerInstr.grows (hu.placed l.pc) hlower
  refine ⟨?_, hentered.adds.size_le, hcode ▸ hlowered.adds.size_le⟩
  rw [hpositions, hlowered.positions, State.placed, hentered.positions]

/-- Lowering instructions leaves the code before them in its place. -/
theorem adds_of_forM (hs : Orderly site s) (h : Yields (instrs.forM (lowerAt site)) s a t) :
    Adds (fun _ => True) s t :=
  adds_forM hs (fun _ _ => trivial) (fun _ _ _ _ => trivial) h

/-- The positions of instructions start in the code that these emit, and no others change. -/
theorem positions_of_forM (hs : Orderly site s) (h : Yields (instrs.forM (lowerAt site)) s a t) :
    (∀ pc ∉ instrs.map Located.pc, t.positions[pc]? = s.positions[pc]?) ∧
      ∀ pc ∈ instrs.map Located.pc, ∃ index, t.positions[pc]? = some index ∧
        s.code.size ≤ index ∧ index ≤ t.code.size := by
  induction instrs generalizing s with
  | nil =>
      obtain ⟨-, rfl⟩ := yields_pure.mp h
      exact ⟨fun _ _ => rfl, fun _ hpc => nomatch hpc⟩
  | cons l rest ih =>
      obtain ⟨u, hfirst, hrest⟩ := yields_forM_cons.mp h
      obtain ⟨v, w, flow, henter, -⟩ := yields_lowerAt.mp hfirst
      obtain ⟨hpositions, hle, hle'⟩ := positions_of_lowerAt hs hfirst henter
      have hsound := sound_lowerAt hs hfirst
      obtain ⟨hother, hown⟩ := ih hsound hrest
      have hsize := (adds_of_forM hsound hrest).size_le
      have hu : ∀ pc, u.positions[pc]? = if l.pc = pc then
          some v.code.size else s.positions[pc]? := by
        intro pc
        simp [hpositions, Std.HashMap.getElem?_insert]
      refine ⟨fun pc hpc => ?_, fun pc hpc => ?_⟩
      · rw [List.map_cons, List.mem_cons, not_or] at hpc
        rw [hother pc hpc.2, hu, if_neg (Ne.symm hpc.1)]
      · by_cases hlater : pc ∈ rest.map Located.pc
        · obtain ⟨index, hindex, hlow, hhigh⟩ := hown pc hlater
          exact ⟨index, hindex, by omega, hhigh⟩
        · obtain rfl : pc = l.pc := (List.mem_cons.mp hpc).resolve_right hlater
          exact ⟨v.code.size, by rw [hother _ hlater, hu, if_pos rfl], hle, by omega⟩

/-- The code of instructions that are still to come starts after the code so far. -/
theorem le_position_of_mem {after : List Located} {x : Located} (hs : Orderly site s)
    (hafter : Yields (after.forM (lowerAt site)) s () fin) (hx : x ∈ after)
    (hindex : fin.positions[x.pc]? = some index) : s.code.size ≤ index := by
  obtain ⟨index', hindex', hle, -⟩ := (positions_of_forM hs hafter).2 x.pc (List.mem_map_of_mem hx)
  rw [hindex', Option.some.injEq] at hindex
  omega

/-! ### The stages of a method -/

/-- A stage of lowering: after the instructions `before`, the instruction `l` is lowered from `s` to
`t`. -/
structure Stage (site : Site) (instrs before : List Located) (l : Located)
    (s t : State) : Prop where
  follows : before ++ [l] <+: instrs
  reached : Yields (before.forM (lowerAt site)) {} () s
  lowered : Yields (lowerAt site l) s () t

/-- Every instruction of the code comes from a stage. -/
theorem exists_stage (h : Yields (instrs.forM (lowerAt site)) {} () fin) (hk : k < fin.code.size) :
    ∃ before l s t, Stage site instrs before l s t ∧ s.code.size ≤ k ∧ k < t.code.size := by
  suffices hfrom : ∀ before rest s, before ++ rest = instrs →
      Yields (before.forM (lowerAt site)) {} () s →
      Yields (rest.forM (lowerAt site)) s () fin → s.code.size ≤ k →
        ∃ before l s t, Stage site instrs before l s t ∧ s.code.size ≤ k ∧ k < t.code.size from
    hfrom [] instrs {} rfl (yields_pure.mpr ⟨rfl, rfl⟩) h (Nat.zero_le k)
  intro before rest s hsplit hreached hrest hs
  induction rest generalizing before s with
  | nil =>
      obtain ⟨-, rfl⟩ := yields_pure.mp hrest
      exact absurd hk (Nat.not_lt.mpr hs)
  | cons l rest ih =>
      obtain ⟨t, hlowered, hlater⟩ := yields_forM_cons.mp hrest
      have hsplit' : (before ++ [l]) ++ rest = instrs := by rw [← hsplit]; simp
      by_cases hlt : k < t.code.size
      · exact ⟨before, l, s, t, ⟨⟨rest, hsplit'⟩, hreached, hlowered⟩, hs, hlt⟩
      · have hnext : Yields ([l].forM (lowerAt site)) s () t :=
          yields_forM_cons.mpr ⟨t, hlowered, yields_pure.mpr ⟨rfl, rfl⟩⟩
        exact ih (before ++ [l]) t hsplit' (yields_forM_append.mpr ⟨s, hreached, hnext⟩) hlater
          (Nat.not_lt.mp hlt)

namespace Stage

variable {before : List Located}

/-- A stage starts in order. -/
theorem sound (h : Stage site instrs before l s t) : Orderly site s :=
  sound_forM (sound_empty site) h.reached

/-- After a stage come the instructions that follow. -/
theorem rest (h : Stage site instrs before l s t)
    (hfin : Yields (instrs.forM (lowerAt site)) {} () fin) :
    ∃ after, instrs = before ++ l :: after ∧ Yields (after.forM (lowerAt site)) t () fin := by
  obtain ⟨after, hafter⟩ := h.follows
  obtain rfl : instrs = before ++ l :: after := by rw [← hafter]; simp
  obtain ⟨s', hreached, hrest⟩ := yields_forM_append.mp hfin
  obtain rfl : s' = s := (hreached.unique h.reached).2
  obtain ⟨t', hlowered, hlater⟩ := yields_forM_cons.mp hrest
  obtain rfl : t' = t := (hlowered.unique h.lowered).2
  exact ⟨after, rfl, hlater⟩

/-- The code of earlier instructions starts before the stage. -/
theorem position_le (h : Stage site instrs before l s t)
    (hfin : Yields (instrs.forM (lowerAt site)) {} () fin) (hnodup : (instrs.map Located.pc).Nodup)
    {x : Located} (hx : x ∈ before) (hindex : fin.positions[x.pc]? = some index) :
    index ≤ s.code.size := by
  obtain ⟨after, rfl, hlater⟩ := h.rest hfin
  have hmem : x.pc ∈ before.map Located.pc := List.mem_map_of_mem hx
  rw [List.map_append] at hnodup
  have hother : x.pc ∉ (l :: after).map Located.pc := List.disjoint_of_nodup_append hnodup hmem
  have hrest : Yields ((l :: after).forM (lowerAt site)) s () fin :=
    yields_forM_cons.mpr ⟨t, h.lowered, hlater⟩
  obtain ⟨index', hindex', -, hle⟩ := (positions_of_forM (sound_empty site) h.reached).2 x.pc hmem
  rw [(positions_of_forM h.sound hrest).1 x.pc hother, hindex', Option.some.injEq] at hindex
  omega

/-- The code of an instruction starts after the moves into it. -/
theorem position_eq (h : Stage site instrs before l s t)
    (hfin : Yields (instrs.forM (lowerAt site)) {} () fin) (hnodup : (instrs.map Located.pc).Nodup)
    (henter : Yields (enter site l.pc) s () u) : fin.positions[l.pc]? = some u.code.size := by
  obtain ⟨after, rfl, hlater⟩ := h.rest hfin
  rw [List.map_append] at hnodup
  have hnew : l.pc ∉ after.map Located.pc := (List.nodup_cons.mp hnodup.of_append_right).1
  rw [(positions_of_forM (sound_lowerAt h.sound h.lowered) hlater).1 l.pc hnew,
    (positions_of_lowerAt h.sound h.lowered henter).1,
    Std.HashMap.getElem?_insert_self]

/-- What was emitted stays in its place. -/
theorem getElem? (h : Stage site instrs before l s t)
    (hfin : Yields (instrs.forM (lowerAt site)) {} () fin) (hk : k < t.code.size) :
    fin.code[k]? = t.code[k]? := by
  obtain ⟨after, -, hlater⟩ := h.rest hfin
  exact (adds_of_forM (sound_lowerAt h.sound h.lowered) hlater).getElem?_of_lt hk

end Stage

section Methods

variable {context : Context} {owner : ClassTable} {method : Method} {stream : Stream} {body : Body}

/-- Every instruction of a body was emitted in a stage. -/
theorem Lowered.exists_stage (h : Lowered context owner method stream fin body) {inst : Inst}
    (hinst : body.code[k]? = some inst) :
    ∃ before l s t e inst' marks,
      Stage (.of context owner method stream) stream.instrs before l s t ∧
      s.code.size ≤ k ∧ k < t.code.size ∧ t.code[k]? = some e ∧
      resolve fin.positions e = .ok inst' ∧ inst = { inst' with marks } := by
  obtain ⟨e, inst', marks, he, hresolve, hinst'⟩ := h.resolved.exists_of_getElem? hinst
  rw [Array.getElem?_toList] at he
  have hk : k < fin.code.size := (Array.getElem?_eq_some_iff.mp he).1
  obtain ⟨before, l, s, t, hstage, hs, ht⟩ := Lowering.exists_stage h.run hk
  exact ⟨before, l, s, t, e, inst', marks, hstage, hs, ht, hstage.getElem? h.run ht ▸ he,
    hresolve, hinst'⟩

/-- What writes to a local variable comes from an instruction that assigns it, and what writes to a
merge slot from a flush. -/
theorem Lowered.origin_of_dst (h : Lowered context owner method stream fin body) {inst : Inst}
    (hinst : body.code[k]? = some inst) (hdst : inst.dst = some (.slot index))
    (hindex : index < method.maxLocals.toNat + method.maxStack.toNat) :
    ∃ before l s t, Stage (.of context owner method stream) stream.instrs before l s t ∧
      s.code.size ≤ k ∧ k < t.code.size ∧ (index < method.maxLocals.toNat → Assigns index l.instr) ∧
      (method.maxLocals.toNat ≤ index → Flushed (.of context owner method stream) l s k) := by
  obtain ⟨before, l, s, t, e, inst', marks, hstage, hs, ht, he, hresolve, rfl⟩ :=
    h.exists_stage hinst
  refine ⟨before, l, s, t, hstage, hs, ht, ?_⟩
  rcases origin_of_lowerAt hstage.sound hstage.lowered hs he with
    ⟨hflushed, hshifts⟩ | hown | hbranch
  · cases e with
    | inst i =>
        cases hresolve
        have hle := hshifts.2.2 index hdst
        exact ⟨fun hlt => absurd hle (Nat.not_le.mpr hlt), fun _ => hflushed⟩
    | branch => exact hshifts.elim
  · cases e with
    | inst i =>
        cases hresolve
        rcases hown.2.2 index hdst with ⟨hlt, hassigns⟩ | hle
        · exact ⟨fun _ => hassigns, fun hle => absurd hlt (Nat.not_lt.mpr hle)⟩
        · exact absurd hle (Nat.not_le.mpr hindex)
    | branch => exact hown.elim
  · obtain ⟨condition, target, -, rfl⟩ := hbranch
    obtain ⟨_, -, ⟨-, rfl⟩ | ⟨_, -, rfl⟩⟩ := resolve_branch hresolve <;> cases hdst

end Methods

/-! ### Numbers of operands -/

/-- An emitted instruction has no more operands than a bound. -/
def Emitted.Narrow (bound : Nat) : Emitted → Prop
  | .inst i => i.args.length ≤ bound
  | .branch .. => True

/-- A move has one operand. -/
theorem narrow_of_shift (h : e.Shift site) : e.Narrow (3 + site.maxStack.toNat) := by
  rcases h with ⟨ty, tmp, src, -, rfl⟩ | ⟨ty, depth, src, -, rfl⟩
  all_goals
    change 1 ≤ _
    omega

/-- No instruction has more operands than a call with all of the stack as its arguments. -/
theorem Emitted.From.narrow (h : e.From site l) : e.Narrow (3 + site.maxStack.toNat) := by
  cases h with
  | shift _ h => exact narrow_of_shift h
  | branch h =>
      obtain ⟨condition, target, -, rfl⟩ := h
      trivial
  | issued h =>
      cases h with
      | spill h => exact narrow_of_shift (.inl h)
      | store | increment | compare =>
          simp only [moveTo, addTo, Emitted.Narrow, List.length_cons, List.length_nil]
          omega
      | @operation kind front args op _ hl hargs hwords =>
          have hfront : front.length ≤ 1 := by
            rcases front_of_performs hl with ⟨rfl, -⟩ | ⟨_, _, -, rfl⟩ <;> simp
          have hcount : op.params.length ≤ (op.params.map ValueType.words).sum := by
            have hle := List.length_le_sum_of_one_le (op.params.map ValueType.words) fun n hn => by
              obtain ⟨ty, -, rfl⟩ := List.mem_map.mp hn
              exact words_pos ty
            rwa [List.length_map] at hle
          rw [hargs.length_eq] at hcount
          simp only [Emitted.Narrow, List.length_append]
          omega
      | @ret ty args _ hargs =>
          have hlength : ty.toList.length ≤ 1 := by cases ty <;> simp
          rw [hargs.length_eq] at hlength
          exact Nat.le_trans hlength (by omega)

/-- The bodies of methods have no instruction with very many operands. -/
theorem length_args_of_lower {context : Context} {owner : ClassTable} {method : Method}
    {body : Body} (h : lower context owner method = .ok body) :
    ∀ inst ∈ body.code, inst.args.length ≤ 2 ^ 17 := by
  obtain ⟨stream, fin, hlowered⟩ := exists_lowered h
  intro inst hinst
  obtain ⟨k, hk⟩ := List.mem_iff_getElem?.mp hinst
  obtain ⟨before, l, s, t, e, inst', marks, hstage, hs, ht, he, hresolve, rfl⟩ :=
    hlowered.exists_stage hk
  have hnarrow := (adds_lowerAt hstage.sound (fun _ => narrow_of_shift)
    (fun _ => Emitted.From.narrow) hstage.lowered).of_getElem? hs he
  have hstack := method.maxStack.toNat_lt
  cases e with
  | inst i =>
      cases hresolve
      simp only [Emitted.Narrow, Site.of] at hnarrow ⊢
      omega
  | branch condition pc target =>
      obtain ⟨_, -, ⟨-, rfl⟩ | ⟨_, -, rfl⟩⟩ := resolve_branch hresolve <;> simp

end SlotJit.Lowering

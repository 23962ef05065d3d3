import SlotJit.Proofs.Lowering.Blocks

/-!
# Taking operands from the symbolic stack

`Holds` is what lowering keeps true of its state: temporaries are tidy, the depth is counted right
and within bounds, and the same goes for the stacks that branch targets are entered with. `Quiet` is
a step that emits nothing and records nothing, but may change which entries are held.

The operands of an operation are popped one by one, the last one first; `popped_operands` says that
they read, in the frame as it is, the values that the popped entries stand for.
-/

namespace SlotJit.Lowering

open SlotJit.Ir SlotJit.Semantics SlotJit.Tables

variable {site : Site} {pc : Nat} {s t u : State} {e : Entry} {ty : ValueType}
  {held held' held'' : List Entry}

/-! ### What lowering keeps true -/

/-- Every value takes a word. -/
theorem words_pos (ty : ValueType) : 0 < ty.words := by
  cases ty <;> decide

/-- Every entry takes a word. -/
theorem Entry.words_pos (e : Entry) : 0 < e.words := by
  unfold Entry.words
  split
  · exact Lowering.words_pos _
  · exact Nat.one_pos

/-- The held entries are tidy, the depth is the number of words on the stack, and neither it nor
that of a recorded stack exceeds the declared one. -/
structure Holds (site : Site) (s : State) (held : List Entry) : Prop where
  tidy : Tidy site s.stack held
  words : s.stack.words = (s.stack.entries.map Entry.words).sum
  depth : s.stack.words ≤ site.maxStack.toNat
  recorded : ∀ (target : Nat) (types : List ValueType), s.entryTypes[target]? = some types →
    (types.map ValueType.words).sum ≤ site.maxStack.toNat

/-- Lowering starts in order. -/
theorem holds_empty (site : Site) : Holds site {} [] :=
  ⟨⟨.refl _, fun e he => nomatch he⟩, rfl, Nat.zero_le _, fun target types h => by simp at h⟩

/-- The stack and what was recorded are all that matters. -/
theorem Holds.congr (h : Holds site s held) (hstack : t.stack = s.stack)
    (hentryTypes : t.entryTypes = s.entryTypes) : Holds site t held :=
  ⟨hstack ▸ h.tidy, hstack ▸ h.words, hstack ▸ h.depth, hentryTypes ▸ h.recorded⟩

/-- The order of the held entries does not matter. -/
theorem Holds.perm (h : Holds site s held) (hperm : held.Perm held') : Holds site s held' :=
  ⟨h.tidy.perm hperm, h.words, h.depth, h.recorded⟩

/-- Nothing was emitted and nothing recorded. -/
structure Quiet (site : Site) (s t : State) (held held' : List Entry) : Prop where
  code : t.code = s.code
  positions : t.positions = s.positions
  entryTypes : t.entryTypes = s.entryTypes
  holds : Holds site s held → Holds site t held'

namespace Quiet

/-- Nothing happens. -/
theorem refl : Quiet site s s held held := ⟨rfl, rfl, rfl, id⟩

/-- One quiet step after another. -/
theorem trans (h : Quiet site s t held held') (h' : Quiet site t u held' held'') :
    Quiet site s u held held'' :=
  ⟨h'.code.trans h.code, h'.positions.trans h.positions, h'.entryTypes.trans h.entryTypes,
    h'.holds ∘ h.holds⟩

/-- The order of the held entries does not matter. -/
theorem perm (h : Quiet site s t held held') (hperm : held'.Perm held'') :
    Quiet site s t held held'' :=
  ⟨h.code, h.positions, h.entryTypes, fun hs => (h.holds hs).perm hperm⟩

/-- An entry that holds no temporary need not be held. -/
theorem drop (h : Quiet site s t held (e :: held')) (htmp : e.tmp? = none) :
    Quiet site s t held held' :=
  ⟨h.code, h.positions, h.entryTypes, fun hs =>
    let ht := h.holds hs
    ⟨ht.tidy.drop htmp, ht.words, ht.depth, ht.recorded⟩⟩

end Quiet

/-! ### Pushing and popping -/

/-- A pop is quiet. -/
theorem quiet_pop (site : Site) (held : List Entry) (h : Yields (pop pc) s e t) :
    s.stack.entries = e :: t.stack.entries ∧ Quiet site s t held held := by
  obtain ⟨rest, hentries, -, rfl⟩ := yields_pop.mp h
  refine ⟨hentries, rfl, rfl, rfl, fun hs => ⟨hs.tidy.congr rfl rfl, ?_, ?_, hs.recorded⟩⟩
  · have hwords := hs.words
    rw [hentries, List.map_cons, List.sum_cons] at hwords
    simp only [OperandStack.popped]
    omega
  · have hdepth := hs.depth
    simp only [OperandStack.popped]
    omega

/-- A push is quiet. -/
theorem quiet_push (held : List Entry) {a : Unit} (h : Yields (push site pc e) s a t) :
    t.stack.entries = e :: s.stack.entries ∧ Quiet site s t held held := by
  obtain ⟨hdepth, rfl⟩ := yields_push.mp h
  refine ⟨rfl, rfl, rfl, rfl, fun hs => ⟨hs.tidy.congr rfl rfl, ?_, hdepth, hs.recorded⟩⟩
  have hwords := hs.words
  simp only [OperandStack.push, List.map_cons, List.sum_cons]
  omega

/-- Releasing an entry is quiet. -/
theorem quiet_release (site : Site) (held : List Entry) {a : Unit}
    (h : Yields (releaseEntry e) s a t) :
    t.stack.entries = s.stack.entries ∧ Quiet site s t (e :: held) held := by
  obtain ⟨stack, hrelease, rfl⟩ := yields_releaseEntry.mp h
  obtain ⟨hentries, hwords, -⟩ := releaseEntry_frame hrelease
  refine ⟨hentries, rfl, rfl, rfl, fun hs => ⟨hs.tidy.release hrelease, ?_, ?_, hs.recorded⟩⟩
  · rw [hwords, hentries, hs.words]
  · exact hwords ▸ hs.depth

/-- An entry that holds no temporary is pushed. -/
theorem quiet_pushEntry (held : List Entry) {a : Unit} (h : Yields (push site pc e) s a t)
    (htmp : e.tmp? = none) (hfits : e.Fits site) :
    t.stack.entries = e :: s.stack.entries ∧ Quiet site s t held (e :: held) := by
  obtain ⟨hentries, hquiet⟩ := quiet_push held h
  refine ⟨hentries, hquiet.code, hquiet.positions, hquiet.entryTypes, fun hs => ?_⟩
  have ht := hquiet.holds hs
  exact ⟨ht.tidy.add htmp hfits, ht.words, ht.depth, ht.recorded⟩

/-- Popping an operand is quiet. -/
theorem quiet_popTyped (held : List Entry) {a : Operand} (h : Yields (popTyped site pc ty) s a t) :
    ∃ e, s.stack.entries = e :: t.stack.entries ∧ e.valueType? = some ty ∧
      e.operand? site = some a ∧ Quiet site s t (e :: held) held := by
  obtain ⟨e, rest, stack, hentries, hwords, hty, ha, hrelease, rfl⟩ := yields_popTyped.mp h
  have hpop : Yields (pop pc) s e { s with stack := s.stack.popped e rest } :=
    yields_pop.mpr ⟨rest, hentries, hwords, rfl⟩
  have hrelease : Yields (releaseEntry e) { s with stack := s.stack.popped e rest } ()
      { s with stack } := yields_releaseEntry.mpr ⟨stack, hrelease, rfl⟩
  obtain ⟨hrest, hquiet⟩ := quiet_release site held hrelease
  refine ⟨e, ?_, hty, ha, (quiet_pop site (e :: held) hpop).2.trans hquiet⟩
  rw [hrest, hentries]
  rfl

/-- A new temporary is pushed; no other entry reads its slot. -/
theorem quiet_pushTmp (held : List Entry) {a : Operand} (h : Yields (pushTmp site pc ty) s a t) :
    ∃ index, a = .slot (site.tmpIndex index) ∧
      t.stack.entries = .tmp index ty :: s.stack.entries ∧
        Quiet site s t held (.tmp index ty :: held) ∧
          (Holds site s held → ∀ x ∈ held, x.slot? site ≠ some (site.tmpIndex index)) := by
  obtain ⟨rfl, hdepth, rfl⟩ := yields_pushTmp.mp h
  obtain ⟨hentries, hwords⟩ := alloc_frame s.stack
  refine ⟨_, rfl, by rw [OperandStack.push, hentries], ⟨rfl, rfl, rfl, fun hs => ?_⟩, fun hs x hx =>
    hs.tidy.slot?_ne hx (hs.tidy.alloc ty).2⟩
  refine ⟨(hs.tidy.alloc ty).1.congr rfl rfl, ?_, ?_, hs.recorded⟩
  · have hsum := hs.words
    simp only [OperandStack.push, hentries, hwords, List.map_cons, List.sum_cons]
    omega
  · simp only [OperandStack.push, hwords]
    exact hdepth

/-! ### Copies -/

/-- An entry of a type stands for one value. -/
theorem Entry.Denotes.unique {frame : Frame} {v w : Value} (h : e.Denotes site frame v)
    (h' : e.Denotes site frame w) (hty : e.valueType? = some ty) : v = w := by
  cases e with
  | flags => cases hty
  | literal | localVar | merge | tmp => exact Eq.trans h (Eq.symm h')

/-- What a member of a list is related to by two relations at its place. -/
theorem exists_of_forall₂_of_mem {α β : Type} {R R' : α → β → Prop} {as : List α}
    {bs : List β} {a : α} (h : List.Forall₂ R as bs) (h' : List.Forall₂ R' as bs)
    (ha : a ∈ as) : ∃ b, R a b ∧
      R' a b := by
  induction h with
  | nil => cases ha
  | cons hab _ ih =>
      obtain ⟨hab', hrest'⟩ := List.forall₂_cons.mp h'
      rcases List.mem_cons.mp ha with rfl | ha
      · exact ⟨_, hab, hab'⟩
      · exact ih hrest' ha

/-- Held entries were copied, by moves where they hold temporaries. -/
structure Copies (site : Site) (s t : State) (held es copies : List Entry) : Prop where
  positions : t.positions = s.positions
  entryTypes : t.entryTypes = s.entryTypes
  entries : t.stack.entries = s.stack.entries
  types : copies.map Entry.valueType? = es.map Entry.valueType?
  holds : Holds site t (copies ++ held)
  runs : ∃ moves, t.code.toList = s.code.toList ++ moves ∧ ∀ env values locals core copied,
    Represents site s held values locals core →
      List.Forall₂ (Entry.Denotes site core.frame) es copied →
        ∃ core', executeAll site.context env core moves = .fall core' ∧
          core'.history = core.history ∧
            Represents site t (copies ++ held) (copied ++ values) locals core'

namespace Copies

/-- No copies of nothing. -/
theorem nil (hs : Holds site s held) : Copies site s s held [] [] := by
  refine ⟨rfl, rfl, rfl, rfl, hs, [], (List.append_nil _).symm, ?_⟩
  intro env values locals core copied hrep hcopied
  rw [List.forall₂_nil_left_iff.mp hcopied]
  exact ⟨core, rfl, rfl, hrep⟩

/-- A copy more. -/
theorem cons {es copies : List Entry} {copy : Entry} (h : Copies site s t held es copies)
    (he : e ∈ held) (hty : e.valueType? = some ty) (hcopy : Yields (duplicate site pc e) t copy u) :
    Copies site s u held (e :: es) (copy :: copies) := by
  obtain ⟨hrewrites, hentries⟩ :=
    rewrites_duplicate h.holds.tidy (List.mem_append_right copies he) hcopy
  obtain ⟨moves, hmoves, hruns⟩ := h.runs
  obtain ⟨moves', hmoves', hruns'⟩ := hrewrites.runs
  refine ⟨hrewrites.positions.trans h.positions, hrewrites.entryTypes.trans h.entryTypes,
    hentries.trans h.entries, ?_, ⟨hrewrites.tidy, ?_, ?_, ?_⟩, moves ++ moves', ?_, ?_⟩
  · have htypes := hrewrites.types
    rw [List.map_cons, List.map_cons, List.cons.injEq] at htypes
    rw [List.map_cons, List.map_cons, htypes.1, h.types]
  · rw [hrewrites.words, hentries, h.holds.words]
  · exact hrewrites.words ▸ h.holds.depth
  · exact hrewrites.entryTypes ▸ h.holds.recorded
  · rw [hmoves', hmoves, List.append_assoc]
  · intro env values locals core copied hrep hcopied
    obtain ⟨v, copied, hv, hrest, rfl⟩ := List.forall₂_cons_left_iff.mp hcopied
    obtain ⟨core₁, hexec₁, hhistory₁, hrep₁⟩ := hruns env values locals core copied hrep hrest
    -- The entry is still held, so the moves so far did not change its value.
    have hv₁ : e.Denotes site core₁.frame v := by
      have hlength : copied.length = copies.length := by
        rw [← hrest.length_eq, ← List.length_map Entry.valueType?, ← h.types, List.length_map]
      have hheld := List.forall₂_drop_append _ _ _ hrep₁.denotes
      rw [hlength, List.drop_left] at hheld
      obtain ⟨w, hw, hw₁⟩ := exists_of_forall₂_of_mem hrep.denotes hheld he
      exact hv.unique hw hty ▸ hw₁
    obtain ⟨core₂, hexec₂, -, hhistory₂, hrep₂⟩ :=
      hruns' env (v :: copied ++ values) locals core₁
        ((represents_cons hty).mpr ⟨v, _, rfl, hv₁, hrep₁⟩)
    exact ⟨core₂, by rw [executeAll_append hexec₁, hexec₂], hhistory₂.trans hhistory₁, hrep₂⟩

end Copies

/-! ### Operands -/

/-- Reading operands one after the other. -/
theorem readOperands_append {frame : Frame} {as bs : List Operand} {ts us : List ValueType}
    {vs ws : List Value} (h : readOperands frame as ts = some vs)
    (h' : readOperands frame bs us = some ws) :
    readOperands frame (as ++ bs) (ts ++ us) = some (vs ++ ws) := by
  induction as generalizing ts vs with
  | nil =>
      cases ts with
      | nil =>
          cases h
          exact h'
      | cons => cases h
  | cons a as ih =>
      cases ts with
      | nil => cases h
      | cons ty ts =>
          simp only [readOperands] at h
          split at h
          · rename_i v rest hv hrest
            cases h
            simp only [List.cons_append, readOperands, hv, ih hrest]
          · cases h

/-- Operands in the other order read the same values in the other order. -/
theorem readOperands_reverse {frame : Frame} {args : List Operand} {types : List ValueType}
    {values : List Value} (h : readOperands frame args types = some values) :
    readOperands frame args.reverse types.reverse = some values.reverse := by
  induction args generalizing types values with
  | nil =>
      cases types with
      | nil =>
          cases h
          rfl
      | cons => cases h
  | cons a args ih =>
      cases types with
      | nil => cases h
      | cons ty types =>
          simp only [readOperands] at h
          split at h
          · rename_i v rest hv hrest
            cases h
            simp only [List.reverse_cons]
            exact readOperands_append (ih hrest) (by simp [readOperands, hv])
          · cases h

/-- Popping operands of given types: they read what the popped entries stand for. -/
theorem popped_operands {types : List ValueType} {args : List Operand}
    (h : Yields (types.mapM (popTyped site pc)) s args t) :
    ∃ front, s.stack.entries = front ++ t.stack.entries ∧
      front.map Entry.valueType? = types.map some ∧
      Quiet site s t s.stack.entries t.stack.entries ∧
      ∀ frame values, List.Forall₂ (Entry.Denotes site frame) front values →
        readOperands frame args types = some values := by
  induction types generalizing s args with
  | nil =>
      obtain ⟨rfl, rfl⟩ := yields_mapM_nil.mp h
      refine ⟨[], rfl, rfl, .refl, fun frame values hvalues => ?_⟩
      rw [List.forall₂_nil_left_iff.mp hvalues]
      rfl
  | cons ty types ih =>
      obtain ⟨a, args, u, hfirst, hrest, rfl⟩ := yields_mapM_cons.mp h
      obtain ⟨e, hentries, hty, ha, hquiet⟩ := quiet_popTyped u.stack.entries hfirst
      obtain ⟨front, hfront, htypes, hquiet', hread⟩ := ih hrest
      refine ⟨e :: front, ?_, ?_, ?_, ?_⟩
      · rw [hentries, hfront, List.cons_append]
      · rw [List.map_cons, List.map_cons, hty, htypes]
      · exact hentries ▸ hquiet.trans hquiet'
      · intro frame values hvalues
        obtain ⟨v, rest, hv, hrest, rfl⟩ := List.forall₂_cons_left_iff.mp hvalues
        simp only [readOperands, hv.readOperand hty ha, hread frame rest hrest]

end SlotJit.Lowering

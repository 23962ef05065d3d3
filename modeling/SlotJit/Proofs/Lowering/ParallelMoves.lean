import SlotJit.Proofs.Lowering.Footprint

/-!
# Flushing as a parallel move

A flush moves all stack entries to the merge slots of their depths, as if at once. Entries may stand
for merge slots themselves, in any order and more than once, so that merge slots are read and
written by the same moves; what is overwritten before it is read is saved to a temporary first.

What the entries stand for after the moves is known from `rewrites_flush`. That is about states in
which every temporary is free or held by an entry. Here a temporary may also be neither, so the ones
that got lost are taken to be held by entries that are nowhere on the stack. What remains is that a
flush ends well whenever there is no pending compare, and which slots its moves write.

## Main results

* `OperandStack.InOrder.exists_tidy`: temporaries that got lost can be ignored.
* `settleAll_outcome`: a pending compare is all that stops a flush.
* `adds_flush`: the slots that a flush writes.
* `flush_moves_in_parallel`: a flush is a parallel move.
-/

namespace SlotJit.Lowering

open SlotJit.Ir SlotJit.Semantics SlotJit.Tables

variable {site : Site} {pc : Nat} {s t : State} {stack : OperandStack} {e : Entry}
  {held : List Entry}

/-! ### Stacks in order -/

/-- A stack that lowering can be left with: no two entries share a temporary, none of them is free,
and the slots of the entries are among those of the method. -/
structure OperandStack.InOrder (site : Site) (stack : OperandStack) : Prop where
  distinct : (stack.free ++ heldTmps stack.entries).Nodup
  made : ∀ index ∈ stack.free ++ heldTmps stack.entries, index < stack.tmpCount
  fits : ∀ e ∈ stack.entries, e.Fits site
  depth : (stack.entries.map Entry.words).sum ≤ site.maxStack.toNat

/-- A temporary is free: it was given back, or it was not made yet. -/
def OperandStack.Available (stack : OperandStack) (index : Nat) : Prop :=
  index ∈ stack.free ∨ stack.tmpCount ≤ index

/-- The temporary that comes next is available. -/
theorem OperandStack.available_alloc (stack : OperandStack) : stack.Available stack.alloc.1 := by
  unfold OperandStack.alloc
  split
  · rename_i index free hfree
    exact .inl (hfree ▸ List.mem_cons_self)
  · exact .inr (Nat.le_refl _)

/-- What is available after an allocation was so before. -/
theorem OperandStack.Available.of_alloc {index : Nat} (h : stack.alloc.2.Available index) :
    stack.Available index := by
  unfold OperandStack.alloc at h
  split at h
  · rename_i first free hfree
    exact h.imp_left fun hmem => hfree ▸ List.mem_cons_of_mem _ hmem
  · exact h.imp_right fun hle => Nat.le_of_succ_le hle

/-- Entries for temporaries hold these. -/
theorem heldTmps_tmps (indices : List Nat) (es : List Entry) :
    heldTmps (indices.map (Entry.tmp · .int) ++ es) = indices ++ heldTmps es := by
  rw [heldTmps, List.filterMap_append, List.filterMap_map, heldTmps]
  exact congrArg (· ++ _) (List.filterMap_some (l := indices))

/-- With entries for the temporaries that got lost, every temporary is free or held by one entry. -/
theorem OperandStack.InOrder.exists_tidy (h : stack.InOrder site) :
    ∃ lost : List Entry, (∀ x ∈ lost, ∃ i ty, x = .tmp i ty) ∧
      Tidy site stack (lost ++ stack.entries) := by
  let used := stack.free ++ heldTmps stack.entries
  let lost := (List.range stack.tmpCount).filter (· ∉ used)
  refine ⟨lost.map (Entry.tmp · .int), fun x hx => ?_, ?_, fun x hx => ?_⟩
  · obtain ⟨i, -, rfl⟩ := List.mem_map.mp hx
    exact ⟨i, .int, rfl⟩
  · rw [heldTmps_tmps]
    have hswap : (stack.free ++ (lost ++ heldTmps stack.entries)).Perm (lost ++ used) :=
      List.perm_append_comm_assoc ..
    refine hswap.trans ((List.perm_ext_iff_of_nodup ?_ List.nodup_range).mpr fun index => ?_)
    · refine List.nodup_append.mpr ⟨List.nodup_range.filter _, h.distinct, ?_⟩
      rintro i hlost _ hused rfl
      exact absurd hused (by simpa using (List.mem_filter.mp hlost).2)
    · have hmade : index ∈ used → index < stack.tmpCount := h.made index
      simp only [List.mem_append (s := lost), lost, List.mem_filter, List.mem_range,
        decide_eq_true_eq]
      tauto
  · rcases List.mem_append.mp hx with hx | hx
    · obtain ⟨i, -, rfl⟩ := List.mem_map.mp hx
      exact trivial
    · exact h.fits x hx

/-! ### A flush ends well unless a compare is pending -/

/-- Flags alone have no type. -/
theorem Entry.valueType?_eq_none {e : Entry} : e.valueType? = none ↔ e = .flags := by
  cases e <;> simp [Entry.valueType?]

/-- Steps that always succeed do so one after the other. -/
theorem exists_yields_mapM {α β : Type} {f : α → Lower β} (hf : ∀ a s, ∃ b t, Yields (f a) s b t)
    (as : List α) (s : State) : ∃ bs t, Yields (as.mapM f) s bs t := by
  induction as generalizing s with
  | nil => exact ⟨[], s, yields_mapM_nil.mpr ⟨rfl, rfl⟩⟩
  | cons a as ih =>
      obtain ⟨b, t, hfirst⟩ := hf a s
      obtain ⟨bs, u, hrest⟩ := ih t
      exact ⟨b :: bs, u, yields_mapM_cons.mpr ⟨b, bs, t, hfirst, hrest, rfl⟩⟩

/-- Entries are replaced by what the loop over them gives. -/
theorem yields_replaceEntries {f : Nat → Entry → Lower Entry} {a : Unit} :
    Yields (replaceEntries f) s a t ↔ ∃ out u,
      Yields (s.stack.entries.reverse.zipIdx.mapM fun (e, depth) => f depth e) s out u ∧
        t = { u with stack.entries := out.reverse } := by
  rw [replaceEntries, yields_get_bind, yields_bind]
  simp only [yields_modify, eq_comm]

/-- Unhooking entries does not fail. -/
theorem exists_yields_unhook (site : Site) (s : State) :
    ∃ t, Yields (replaceEntries (unhook site)) s () t := by
  have hstep (entry : Entry × Nat) (s : State) :
      ∃ e' t, Yields (unhook site entry.2 entry.1) s e' t := by
    unfold unhook
    split
    · split
      · exact ⟨_, _, yields_pure.mpr ⟨rfl, rfl⟩⟩
      · exact ⟨_, _, yields_spill.mpr ⟨rfl, rfl⟩⟩
    · exact ⟨_, _, yields_pure.mpr ⟨rfl, rfl⟩⟩
  obtain ⟨out, u, hloop⟩ := exists_yields_mapM hstep s.stack.entries.reverse.zipIdx s
  exact ⟨_, yields_replaceEntries.mpr ⟨out, u, hloop, rfl⟩⟩

/-- Flags cannot be settled. -/
theorem fails_settle_flags (site : Site) (pc depth : Nat) (s : State) :
    Fails (settle site pc depth .flags) s (.flagsAsValue pc) :=
  rfl

/-- An entry that is not the flags can be moved to a merge slot, and holds no temporary then. -/
theorem exists_yields_settle (htidy : Tidy site s.stack (e :: held)) (he : e ≠ .flags)
    (pc depth : Nat) : ∃ e' t, Yields (settle site pc depth e) s e' t ∧ Tidy site t.stack held := by
  obtain ⟨ty, hty⟩ :=
    Option.ne_none_iff_exists'.mp fun hnone => he (Entry.valueType?_eq_none.mp hnone)
  by_cases hhome : e = .merge depth ty
  · exact ⟨.merge depth ty, s, yields_settle.mpr ⟨ty, hty, rfl, .inl ⟨hhome, rfl⟩⟩,
      htidy.drop (hhome ▸ rfl)⟩
  · obtain ⟨stack, hrelease⟩ := htidy.exists_release
    obtain ⟨a, ha⟩ : ∃ a, e.operand? site = some a := by
      cases e with
      | flags => exact absurd rfl he
      | literal value => cases value <;> exact ⟨_, rfl⟩
      | localVar | merge | tmp => exact ⟨_, rfl⟩
    exact ⟨.merge depth ty, _,
      yields_settle.mpr ⟨ty, hty, rfl, .inr ⟨hhome, a, stack, ha, hrelease, rfl⟩⟩,
      htidy.release hrelease⟩

/-- Moving entries to merge slots goes on to the end, or to the first flags among them. -/
theorem settleAll_outcome {es : List Entry} {k : Nat} (htidy : Tidy site s.stack (es ++ held)) :
    (.flags ∉ es →
      ∃ out t, Yields ((es.zipIdx k).mapM fun (e, depth) => settle site pc depth e) s out t) ∧
      (.flags ∈ es →
        Fails ((es.zipIdx k).mapM fun (e, depth) => settle site pc depth e) s
          (.flagsAsValue pc)) := by
  induction es generalizing s k with
  | nil =>
      exact ⟨fun _ => ⟨[], s, yields_mapM_nil.mpr ⟨rfl, rfl⟩⟩, fun h => absurd h List.not_mem_nil⟩
  | cons e es ih =>
      rw [List.zipIdx_cons, fails_mapM_cons]
      by_cases he : e = .flags
      · subst he
        exact ⟨fun hno => absurd List.mem_cons_self hno, fun _ => .inl (fails_settle_flags ..)⟩
      · obtain ⟨e', t, hfirst, htidy'⟩ := exists_yields_settle htidy he pc k
        obtain ⟨hyields, hfails⟩ := ih (k := k + 1) htidy'
        have hmem : .flags ∈ e :: es ↔ .flags ∈ es := by simp [Ne.symm he]
        rw [hmem]
        refine ⟨fun hno => ?_, fun hflags => .inr ⟨e', t, hfirst, hfails hflags⟩⟩
        obtain ⟨out, u, hrest⟩ := hyields hno
        exact ⟨e' :: out, u, yields_mapM_cons.mpr ⟨e', out, t, hfirst, hrest, rfl⟩⟩

/-! ### Slots that a flush writes -/

/-- An instruction that moves a value to one of some slots. -/
def Emitted.MovesTo (touched : Nat → Prop) (e : Emitted) : Prop :=
  ∃ ty index src, touched index ∧ e = moveTo ty index src

/-- Moves leave all other slots alone. -/
theorem frame_of_movesTo {context : Context} {env : Environment} {core core' : Core}
    {moves : List Emitted} {touched : Nat → Prop} (hmoves : ∀ m ∈ moves, m.MovesTo touched)
    (h : executeAll context env core moves = .fall core') {i : Nat} (hi : ¬ touched i) :
    core'.frame i = core.frame i := by
  induction moves generalizing core with
  | nil =>
      cases h
      rfl
  | cons m rest ih =>
      obtain ⟨ty, index, src, htouched, rfl⟩ := hmoves m List.mem_cons_self
      have hne : i ≠ index := fun heq => hi (heq ▸ htouched)
      cases hread : readOperand core.frame src ty with
      | none => simp [executeAll, moveTo, Emitted.execute, Core.execute, hread] at h
      | some v =>
          rw [executeAll, moveTo, execute_move hread] at h
          exact (ih (fun m hm => hmoves m (List.mem_cons_of_mem _ hm)) h).trans
            (Frame.set_of_ne core.frame v hne)

/-- What a loop over entries adds to the code, if every step keeps an invariant. -/
theorem adds_mapM {P : Emitted → Prop} {I : State → Prop} {f : Nat → Entry → Lower Entry} {n : Nat}
    (hstep : ∀ depth < n, ∀ e u e' v, I u → Yields (f depth e) u e' v → I v ∧ Adds P u v)
    {es out : List Entry} {k : Nat} (hlength : k + es.length ≤ n) (hs : I s)
    (h : Yields ((es.zipIdx k).mapM fun (e, depth) => f depth e) s out t) : Adds P s t := by
  induction es generalizing k s out with
  | nil =>
      obtain ⟨-, rfl⟩ := yields_mapM_nil.mp h
      exact .of_code_eq rfl
  | cons e es ih =>
      rw [List.length_cons] at hlength
      obtain ⟨e', rest, u, hfirst, hrest, rfl⟩ := yields_mapM_cons.mp h
      obtain ⟨hu, hadds⟩ := hstep k (by omega) e s e' u hs hfirst
      exact hadds.trans (ih (k := k + 1) (by omega) hu hrest)

/-- Replacing entries adds what replacing each of them adds. -/
theorem adds_replaceEntries {P : Emitted → Prop} {f : Nat → Entry → Lower Entry} {a : Unit}
    (I : State → Prop)
    (hstep : ∀ depth < s.stack.entries.length, ∀ e u e' v, I u → Yields (f depth e) u e' v →
      I v ∧ Adds P u v)
    (hs : I s) (h : Yields (replaceEntries f) s a t) : Adds P s t := by
  obtain ⟨out, u, hloop, rfl⟩ := yields_replaceEntries.mp h
  exact (adds_mapM hstep (by simp) hs hloop).trans (.of_code_eq rfl)

/-- The slots that a flush may write: merge slots that are needed, and temporaries that are free. -/
def FlushSlot (site : Site) (stack : OperandStack) (i : Nat) : Prop :=
  (∃ depth < stack.entries.length, i = site.maxLocals.toNat + depth) ∨
    ∃ index, stack.Available index ∧ i = site.tmpIndex index

/-- The first loop of a flush writes to temporaries that were free. -/
theorem adds_unhook {a : Unit} (h : Yields (replaceEntries (unhook site)) s a t) :
    Adds (Emitted.MovesTo (FlushSlot site s.stack)) s t := by
  refine adds_replaceEntries
    (fun u => ∀ index, u.stack.Available index → s.stack.Available index) ?_ (fun _ => id) h
  intro depth _ e u e' v hu hyields
  cases (spills_unhook hyields).1 with
  | stays => exact ⟨hu, .of_code_eq rfl⟩
  | spilled =>
      refine ⟨fun index hindex =>
        hu index hindex.of_alloc, .push rfl ⟨_, _, _, .inr ⟨_, ?_, rfl⟩, rfl⟩⟩
      exact hu _ u.stack.available_alloc

/-- The second loop of a flush writes to the merge slots. -/
theorem adds_settle {a : Unit} {n : Nat} (hlength : s.stack.entries.length = n)
    (h : Yields (replaceEntries (settle site pc)) s a t) :
    Adds (Emitted.MovesTo fun i => ∃ depth < n, i = site.maxLocals.toNat + depth) s t := by
  refine adds_replaceEntries (fun _ => True) (fun depth hdepth e u e' v _ hyields => ⟨trivial, ?_⟩)
    trivial h
  obtain ⟨ty, -, -, ⟨-, rfl⟩ | ⟨-, src, stack, -, -, rfl⟩⟩ := yields_settle.mp hyields
  · exact .of_code_eq rfl
  · exact .push rfl ⟨ty, _, src, ⟨depth, hlength ▸ hdepth, rfl⟩, rfl⟩

/-- The moves of a flush write merge slots that are needed and temporaries that are free. -/
theorem adds_flush {a : Unit} {u : State} (hunhook : Yields (replaceEntries (unhook site)) s () u)
    (hlength : u.stack.entries.length = s.stack.entries.length)
    (hsettle : Yields (replaceEntries (settle site pc)) u a t) :
    Adds (Emitted.MovesTo (FlushSlot site s.stack)) s t := by
  refine (adds_unhook hunhook).trans ((adds_settle hlength hsettle).mono ?_)
  rintro e ⟨ty, index, src, hmerge, rfl⟩
  exact ⟨ty, index, src, .inl hmerge, rfl⟩

/-! ### Values -/

/-- Entries have values. -/
theorem exists_denotes (site : Site) (frame : Frame) (es : List Entry) :
    ∃ values, List.Forall₂ (Entry.Denotes site frame) es values := by
  induction es with
  | nil => exact ⟨[], .nil⟩
  | cons e es ih =>
      obtain ⟨values, hvalues⟩ := ih
      obtain ⟨v, hv⟩ : ∃ v, e.Denotes site frame v := by
        cases e with
        | flags => exact ⟨_, .eq, rfl⟩
        | literal | localVar | merge | tmp => exact ⟨_, rfl⟩
      exact ⟨v :: values, .cons hv hvalues⟩

/-- What stands in the second of two related lists, by its place. -/
theorem getElem?_of_forall₂ {α β : Type} {R : α → β → Prop} {as : List α} {bs : List β}
    (h : List.Forall₂ R as bs) {i : Nat} {a : α} (ha : as[i]? = some a) :
    ∃ b, bs[i]? = some b ∧ R a b := by
  induction h generalizing i with
  | nil => cases ha
  | cons hab _ ih =>
      rcases i with - | i
      · cases ha
        exact ⟨_, rfl, hab⟩
      · exact ih ha

/-- Entries with types are no flags, so that nothing but their slots decides what they stand for. -/
theorem represents_of_typed {values : List Value} {core : Core}
    (htyped : ∃ types : List ValueType, held.map Entry.valueType? = types.map some)
    (h : List.Forall₂ (Entry.Denotes site core.frame) held values) :
    Represents site s held values core.frame core := by
  obtain ⟨types, htypes⟩ := htyped
  refine ⟨h, fun _ _ => rfl, fun _ v hv => ?_⟩
  rw [htypes, topFlags_of_typed] at hv
  cases hv

/-- Entries other than flags have types. -/
theorem exists_types {es : List Entry} (h : .flags ∉ es) :
    ∃ types : List ValueType, es.map Entry.valueType? = types.map some := by
  induction es with
  | nil => exact ⟨[], rfl⟩
  | cons e es ih =>
      rw [List.mem_cons, not_or] at h
      obtain ⟨types, htypes⟩ := ih h.2
      obtain ⟨ty, hty⟩ := Option.ne_none_iff_exists'.mp fun hnone =>
        h.1 (Entry.valueType?_eq_none.mp hnone).symm
      exact ⟨ty :: types, by rw [List.map_cons, List.map_cons, hty, htypes]⟩

/-- When entries stand for the same values in the merge slots of their depths as before elsewhere,
every value is in the merge slot of its depth. -/
theorem values_in_merge_slots {es lost : List Entry} {types : List ValueType} {values : List Value}
    {frame frame' : Frame} (hbefore : List.Forall₂ (Entry.Denotes site frame) (lost ++ es) values)
    (hafter : List.Forall₂ (Entry.Denotes site frame') (lost ++ merged types) values)
    (htypes : es.reverse.map Entry.valueType? = types.map some) {depth : Nat}
    (he : es.reverse[depth]? = some e) :
    ∃ v, e.Denotes site frame v ∧ e.valueType? = some v.type ∧
      frame'.get v.type (site.maxLocals.toNat + depth) = v := by
  have hbefore := List.forall₂_reverse_iff.mpr (List.forall₂_drop lost.length hbefore)
  have hafter := List.forall₂_reverse_iff.mpr (List.forall₂_drop lost.length hafter)
  rw [List.drop_left] at hbefore hafter
  obtain ⟨v, hv, hdenotes⟩ := getElem?_of_forall₂ hbefore he
  have hty : (types.map some)[depth]? = some e.valueType? := by
    rw [← htypes, List.getElem?_map, he]
    rfl
  obtain ⟨ty, hget, hety⟩ := Option.map_eq_some_iff.mp (List.getElem?_map ▸ hty)
  have hmerged : (merged types).reverse[depth]? = some (.merge depth ty) := by
    rw [merged, List.reverse_reverse, List.getElem?_map, List.getElem?_zipIdx, hget]
    simp
  obtain ⟨w, hw, hread⟩ := getElem?_of_forall₂ hafter hmerged
  obtain rfl : v = w := Option.some.inj (hv.symm.trans hw)
  have htype : v.type = ty := hdenotes.type hety.symm
  exact ⟨v, hdenotes, by rw [htype, hety], htype ▸ hread.symm⟩

/-- A flush without a pending compare has two loops that end well; with one it fails. -/
theorem flush_outcome {lost : List Entry} (htidy : Tidy site s.stack (lost ++ s.stack.entries))
    (pc : Nat) : (.flags ∉ s.stack.entries → ∃ u t, Yields (replaceEntries (unhook site)) s () u ∧
      u.stack.entries.length = s.stack.entries.length ∧
      Yields (replaceEntries (settle site pc)) u () t) ∧
    (.flags ∈ s.stack.entries → Fails (flush site pc) s (.flagsAsValue pc)) := by
  obtain ⟨u, hunhook⟩ := exists_yields_unhook site s
  obtain ⟨hrewrites, -⟩ := rewrites_unhook lost htidy hunhook
  have htypes : u.stack.entries.map Entry.valueType? = s.stack.entries.map Entry.valueType? := by
    have htypes := hrewrites.types
    rwa [List.map_append, List.map_append, List.append_cancel_left_eq] at htypes
  -- Flags are the entries without a type, so the first loop keeps them.
  have hflags : .flags ∈ u.stack.entries.reverse ↔ .flags ∈ s.stack.entries := by
    have hnone (es : List Entry) : .flags ∈ es ↔ none ∈ es.map Entry.valueType? := by
      simp [List.mem_map, Entry.valueType?_eq_none]
    rw [List.mem_reverse, hnone, hnone, htypes]
  have hu : Tidy site u.stack (u.stack.entries.reverse ++ lost) :=
    hrewrites.tidy.perm (List.perm_append_comm.trans ((List.reverse_perm _).symm.append_right _))
  obtain ⟨hends, hfails⟩ := settleAll_outcome (k := 0) hu
  constructor
  · intro hno
    obtain ⟨out, v, hloop⟩ := hends (fun hmem => hno (hflags.mp hmem))
    exact ⟨u, _, hunhook, by simpa using congrArg List.length htypes,
      yields_replaceEntries.mpr ⟨out, v, hloop, rfl⟩⟩
  · intro hpending
    refine fails_bind.mpr (.inr ⟨(), u, hunhook, ?_⟩)
    rw [replaceEntries, fails_get_bind, fails_bind]
    exact .inl (hfails (hflags.mpr hpending))

/-- **A flush is a parallel move.** Unless a compare is pending, it ends well: the stack is in the
merge slots with its types and words, and executing the moves from any state of the machine puts
what every entry stood for to the merge slot of its depth. No local variable changes, and no slot
but merge slots of the stack and temporaries that were free. -/
theorem flush_moves_in_parallel (hstack : s.stack.InOrder site) (pc : Nat) :
    (.flags ∉ s.stack.entries → ∃ t moves types, Yields (flush site pc) s () t ∧
      t.code.toList = s.code.toList ++ moves ∧ (∀ m ∈ moves, m.kind.isMove = true) ∧
      s.stack.entries.reverse.map Entry.valueType? = types.map some ∧
      t.stack.entries = merged types ∧ t.stack.words = s.stack.words ∧
      t.positions = s.positions ∧ t.entryTypes = s.entryTypes ∧
      ∀ env core, ∃ frame, executeAll site.context env core moves = .fall { core with frame } ∧
        (∀ depth e, s.stack.entries.reverse[depth]? = some e → ∃ v, e.Denotes site core.frame v ∧
          e.valueType? = some v.type ∧ frame.get v.type (site.maxLocals.toNat + depth) = v) ∧
        (∀ i < site.maxLocals.toNat, frame i = core.frame i) ∧
        ∀ i, ¬ FlushSlot site s.stack i → frame i = core.frame i) ∧
    (.flags ∈ s.stack.entries → Fails (flush site pc) s (.flagsAsValue pc)) := by
  obtain ⟨lost, hlost, htidy⟩ := hstack.exists_tidy
  obtain ⟨hends, hfails⟩ := flush_outcome htidy pc
  refine ⟨fun hno => ?_, hfails⟩
  obtain ⟨u, t, hunhook, hlength, hsettle⟩ := hends hno
  have hflush : Yields (flush site pc) s () t := yields_bind.mpr ⟨(), u, hunhook, hsettle⟩
  have hfit : s.stack.entries.length ≤ site.maxStack.toNat :=
    Nat.le_trans (length_le_words _) hstack.depth
  obtain ⟨hrewrites, types, hmerged⟩ := rewrites_flush hlost htidy hfit hflush
  -- What the moves do and where they write was found apart; the moves are the same.
  obtain ⟨moves, hcode, hruns⟩ := hrewrites.runs
  obtain ⟨added, hadded, hmoves⟩ := adds_flush hunhook hlength hsettle
  obtain rfl : moves = added := List.append_cancel_left (hcode.symm.trans hadded)
  have hsame : s.stack.entries.reverse.map Entry.valueType? = types.map some := by
    have hall := hrewrites.types
    rw [hmerged, List.map_append, List.map_append, List.append_cancel_left_eq,
      map_valueType?_merged] at hall
    rw [List.map_reverse, ← hall, ← List.map_reverse, List.reverse_reverse]
  refine ⟨t, moves, types, hflush, hcode, fun m hm => ?_, hsame, hmerged, hrewrites.words,
    hrewrites.positions, hrewrites.entryTypes, fun env core => ?_⟩
  · obtain ⟨ty, index, src, -, rfl⟩ := hmoves m hm
    rfl
  · obtain ⟨values, hvalues⟩ := exists_denotes site core.frame (lost ++ s.stack.entries)
    have hnone : .flags ∉ lost ++ s.stack.entries := by
      intro hmem
      rcases List.mem_append.mp hmem with hmem | hmem
      · obtain ⟨i, ty, hne⟩ := hlost _ hmem
        cases hne
      · exact hno hmem
    obtain ⟨core', hexec, hkept, hhistory, hrep⟩ :=
      hruns env values core.frame core (represents_of_typed (exists_types hnone) hvalues)
    have hcore : core' = { core with frame := core'.frame } := by rw [← hkept, ← hhistory]
    refine ⟨core'.frame, hcore ▸ hexec, fun depth e he => ?_, hrep.frame, fun i hi =>
      frame_of_movesTo hmoves hexec hi⟩
    exact values_in_merge_slots hvalues (hmerged ▸ hrep.denotes) hsame he

/-- Two local variables, and room for six words. -/
def tangledSite : Site :=
  { context := { published := #[] }, constants := {}, maxLocals := 2, maxStack := 6, targets := ∅ }

/-- The two lowest entries are in the merge slots of each other, and the third is one of them again.
The last temporary got lost. -/
def tangled : State :=
  { stack :=
      { entries := [.tmp 1 .int, .literal (.int 7), .localVar 1 .int, .merge 0 .int, .merge 0 .int,
          .merge 1 .int]
        free := [0], tmpCount := 3, words := 6 } }

/-- The entries of `tangled` are in order. -/
theorem inOrder_tangled : tangled.stack.InOrder tangledSite where
  distinct := by decide
  made := by decide
  fits := by simp [tangled, Entry.Fits, tangledSite]
  depth := by decide

/-- The lowest two merge slots are swapped, and the third gets what was in the first. -/
theorem flush_moves_in_parallel_tangled :
    tangled.stack.InOrder tangledSite ∧ .flags ∉ tangled.stack.entries ∧
      ∃ t moves, Yields (flush tangledSite 0) tangled () t ∧ t.code.toList = moves ∧
        ∀ env core, ∃ frame, executeAll tangledSite.context env core moves =
          .fall { core with frame } ∧
          frame.get .int 2 = core.frame.get .int 3 ∧ frame.get .int 3 = core.frame.get .int 2 ∧
          frame.get .int 4 = core.frame.get .int 2 := by
  have hno : .flags ∉ tangled.stack.entries := by decide
  obtain ⟨t, moves, -, hflush, hcode, -, -, -, -, -, -, hruns⟩ :=
    (flush_moves_in_parallel inOrder_tangled 0).1 hno
  refine ⟨inOrder_tangled, hno, t, moves, hflush, hcode, fun env core => ?_⟩
  obtain ⟨frame, hexec, hvalues, -⟩ := hruns env core
  have hread (depth source : Nat)
      (he : tangled.stack.entries.reverse[depth]? = some (.merge source .int)) :
      frame.get .int (2 + depth) = core.frame.get .int (2 + source) := by
    obtain ⟨v, hdenotes, hty, hget⟩ := hvalues depth _ he
    rw [← Option.some.inj hty] at hget
    exact hget.trans hdenotes
  exact ⟨frame, hexec, hread 0 1 rfl, hread 1 0 rfl, hread 2 0 rfl⟩

end SlotJit.Lowering

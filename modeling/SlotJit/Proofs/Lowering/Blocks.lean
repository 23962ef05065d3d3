import SlotJit.Proofs.Lowering.Representation

/-!
# Saving and flushing the symbolic stack

Three loops go over the symbolic stack from the bottom and replace entries: `saveLocal` before a
local variable is written, and the two of `flush` before a block ends. Each of them is a `Rewrites`:
the stack stands for the same values after the moves it emits.

The moves of a flush are a parallel copy. The first loop takes entries away from merge slots of
other depths, so that in the second loop no merge slot is overwritten while an entry still reads it.

## Main results

* `rewrites_saveLocal`: no entry reads the local variable any more.
* `rewrites_flush`: the stack is in the merge slots.
-/

namespace SlotJit.Lowering

open SlotJit.Ir SlotJit.Semantics SlotJit.Tables

variable {site : Site} {pc : Nat} {s t : State}

/-! ### The loop -/

section Loop

-- `P` is what is known of the entries that are done and of those still to do; `above` are entries
-- that are held, but not on the stack.
variable {f : Nat → Entry → Lower Entry} (above : List Entry) (P : List Entry → List Entry → Prop)
  (hstep : ∀ done e rest s t e', Tidy site s.stack ((above ++ rest.reverse) ++ e :: done.reverse) →
    P done (e :: rest) → Yields (f done.length e) s e' t →
      Rewrites site s t ((above ++ rest.reverse) ++ e :: done.reverse)
          ((above ++ rest.reverse) ++ e' :: done.reverse) ∧
        P (done ++ [e']) rest)

include hstep

/-- Replacing entries one after the other, the bottom one first. -/
theorem rewrites_mapM {done todo out : List Entry}
    (htidy : Tidy site s.stack (above ++ (done ++ todo).reverse))
    (hP : P done todo)
    (h : Yields ((todo.zipIdx done.length).mapM fun (e, depth) => f depth e) s out t) :
    Rewrites site s t (above ++ (done ++ todo).reverse) (above ++ (done ++ out).reverse) ∧
      P (done ++ out) [] := by
  induction todo generalizing done out s with
  | nil =>
      obtain ⟨rfl, rfl⟩ := yields_mapM_nil.mp h
      exact ⟨.refl htidy, by rwa [List.append_nil]⟩
  | cons e rest ih =>
      obtain ⟨e', out, u, hfirst, hrest, rfl⟩ := yields_mapM_cons.mp h
      have hsplit : ∀ x : Entry, above ++ (done ++ x :: rest).reverse =
          (above ++ rest.reverse) ++ x :: done.reverse := fun x => by simp
      rw [hsplit] at htidy
      obtain ⟨hrewrites, hP'⟩ := hstep done e rest s u e' htidy hP hfirst
      rw [← hsplit, ← hsplit] at hrewrites
      rw [show done.length + 1 = (done ++ [e']).length by simp] at hrest
      obtain ⟨hrewrites', hdone⟩ := ih (by simpa using hrewrites.tidy) hP' hrest
      simp only [List.append_assoc, List.singleton_append] at hrewrites' hdone
      exact ⟨hrewrites.trans fun _ => hrewrites', hdone⟩

/-- Replacing the entries of the stack. -/
theorem rewrites_replaceEntries {a : Unit} (htidy : Tidy site s.stack (above ++ s.stack.entries))
    (hP : P [] s.stack.entries.reverse) (h : Yields (replaceEntries f) s a t) :
    Rewrites site s t (above ++ s.stack.entries) (above ++ t.stack.entries) ∧
      P t.stack.entries.reverse [] := by
  rw [replaceEntries, yields_get_bind] at h
  obtain ⟨out, u, hloop, hset⟩ := yields_bind.mp h
  obtain rfl := yields_modify.mp hset
  have htidy' : Tidy site s.stack (above ++ ([] ++ s.stack.entries.reverse).reverse) := by
    rwa [List.nil_append, List.reverse_reverse]
  obtain ⟨hrewrites, hdone⟩ := rewrites_mapM above P hstep htidy' hP hloop
  simp only [List.nil_append, List.reverse_reverse] at hrewrites hdone ⊢
  refine ⟨⟨hrewrites.positions, hrewrites.entryTypes, hrewrites.words, hrewrites.types,
    hrewrites.tidy.congr rfl rfl, ?_⟩, hdone⟩
  obtain ⟨moves, hmoves, hruns⟩ := hrewrites.runs
  refine ⟨moves, hmoves, fun env values locals core hrep => ?_⟩
  obtain ⟨core', hexec, hflags, hhistory, hrep'⟩ := hruns env values locals core hrep
  exact ⟨core', hexec, hflags, hhistory, hrep'.congr rfl⟩

end Loop

/-! ### Copies -/

/-- Copying to a new temporary. -/
theorem yields_spill {ty : ValueType} {src : Operand} {e : Entry} :
    Yields (do
      let index ← takeTmp
      emitMove ty (site.tmpSlot index) src
      return Entry.tmp index ty) s e t ↔
    e = .tmp s.stack.alloc.1 ty ∧
      t = { s with
        stack := s.stack.alloc.2
        code := s.code.push (moveTo ty (site.tmpIndex s.stack.alloc.1) src) } := by
  simp only [yields_bind, yields_takeTmp, yields_emitMove, yields_pure]
  constructor
  · rintro ⟨_, _, ⟨rfl, rfl⟩, _, _, rfl, rfl, rfl⟩
    exact ⟨rfl, rfl⟩
  · rintro ⟨rfl, rfl⟩
    exact ⟨_, _, ⟨rfl, rfl⟩, (), _, rfl, rfl, rfl⟩

/-- An entry stays as it is, or a copy in a new temporary takes its place. -/
inductive Spills (site : Site) (e : Entry) (s : State) : Entry → State → Prop
  | stays : Spills site e s e s
  | spilled {ty : ValueType} {src : Operand} (htmp : e.tmp? = none) (hty : e.valueType? = some ty)
      (hsrc : e.operand? site = some src) :
      Spills site e s (.tmp s.stack.alloc.1 ty)
        { s with
          stack := s.stack.alloc.2, code :=
            s.code.push (moveTo ty (site.tmpIndex s.stack.alloc.1) src) }

/-- What is spilled stands for the same value. -/
theorem Spills.rewrites {pre post : List Entry} {e e' : Entry} (h : Spills site e s e' t)
    (htidy : Tidy site s.stack (pre ++ e :: post)) :
    Rewrites site s t (pre ++ e :: post) (pre ++ e' :: post) := by
  cases h with
  | stays => exact .refl htidy
  | spilled htmp hty hsrc => exact rewrites_spill ((htidy.perm List.perm_middle).drop htmp) hty hsrc

/-- A copy of a held entry stands for the same value. -/
theorem rewrites_duplicate {held : List Entry} {e copy : Entry} (htidy : Tidy site s.stack held)
    (he : e ∈ held) (h : Yields (duplicate site pc e) s copy t) :
    Rewrites site s t (e :: held) (copy :: held) ∧ t.stack.entries = s.stack.entries := by
  cases e with
  | tmp index ty =>
      obtain ⟨rfl, rfl⟩ := yields_spill.mp h
      have hspill :=
        rewrites_spill (e := .tmp index ty) (show Tidy site s.stack ([] ++ held) from htidy) rfl rfl
      exact ⟨hspill, (alloc_frame s.stack).1⟩
  | flags => exact absurd h yields_throw
  | literal | localVar | merge =>
      obtain ⟨rfl, rfl⟩ := yields_pure.mp h
      exact ⟨.refl (htidy.add rfl (htidy.fits _ he)), rfl⟩

/-! ### Saving a local variable -/

/-- A slot among the local variables is read by no entry but one of that variable. -/
theorem Entry.slot?_ne_local {e : Entry} {index : Nat} (hindex : index < site.maxLocals.toNat)
    (hne : ∀ ty, e ≠ .localVar index ty) : e.slot? site ≠ some index := by
  intro hslot
  cases e with
  | literal | flags => cases hslot
  | localVar source ty =>
      cases hslot
      exact hne ty rfl
  | merge | tmp =>
      simp only [Entry.slot?, Site.tmpIndex, Option.some.injEq] at hslot
      omega

/-- Copy an entry of a local variable to a temporary. -/
def saveEntry (site : Site) (index : Nat) (_ : Nat) (e : Entry) : Lower Entry :=
  match e with
  | .localVar source ty =>
    if source = index then do
      let tmp ← takeTmp
      emitMove ty (site.tmpSlot tmp) (.slot index)
      return .tmp tmp ty
    else return e
  | _ => return e

theorem saveLocal_eq (index : Nat) :
    saveLocal site index = replaceEntries (saveEntry site index) := rfl

/-- An entry of the variable is spilled, all others stay. -/
theorem spills_saveEntry {index depth : Nat} {e e' : Entry}
    (h : Yields (saveEntry site index depth e) s e' t) :
    Spills site e s e' t ∧ ∀ ty, e' ≠ .localVar index ty := by
  unfold saveEntry at h
  split at h
  · rename_i source ty
    rcases yields_ite.mp h with ⟨rfl, h⟩ | ⟨hsource, h⟩
    · obtain ⟨rfl, rfl⟩ := yields_spill.mp h
      exact ⟨.spilled rfl rfl rfl, fun _ => nofun⟩
    · obtain ⟨rfl, rfl⟩ := yields_pure.mp h
      refine ⟨.stays, fun ty' heq => hsource ?_⟩
      cases heq
      rfl
  · rename_i hother
    obtain ⟨rfl, rfl⟩ := yields_pure.mp h
    exact ⟨.stays, hother index⟩

/-- After the entries that read a local variable were saved, no entry reads it. -/
theorem rewrites_saveLocal {index : Nat} {above : List Entry} {a : Unit}
    (hindex : index < site.maxLocals.toNat) (htidy : Tidy site s.stack (above ++ s.stack.entries))
    (h : Yields (saveLocal site index) s a t) :
    Rewrites site s t (above ++ s.stack.entries) (above ++ t.stack.entries) ∧
      ∀ e ∈ t.stack.entries, e.slot? site ≠ some index := by
  rw [saveLocal_eq] at h
  have hloop := rewrites_replaceEntries above
    (fun done _ => ∀ e ∈ done, e.slot? site ≠ some index) ?_ htidy (by simp) h
  · simpa using hloop
  intro done e rest s t e' htidy hdone hyields
  obtain ⟨hspills, hne⟩ := spills_saveEntry hyields
  refine ⟨hspills.rewrites htidy, fun x hx => ?_⟩
  rcases List.mem_append.mp hx with hx | hx
  · exact hdone x hx
  · rw [List.mem_singleton.mp hx]
    exact Entry.slot?_ne_local hindex hne

/-! ### Flushing -/

/-- Merge entries are at home: each stands for the merge slot of its own depth. Entries are given
from the bottom. -/
def AtHome (es : List Entry) : Prop :=
  ∀ (depth source : Nat) (ty : ValueType), es[depth]? = some (Entry.merge source ty) →
    source = depth

/-- A merge entry of another depth is spilled, all others stay. -/
theorem spills_unhook {depth : Nat} {e e' : Entry} (h : Yields (unhook site depth e) s e' t) :
    Spills site e s e' t ∧ ∀ source ty, e' = .merge source ty → source = depth := by
  unfold unhook at h
  split at h
  · rename_i source ty
    rcases yields_ite.mp h with ⟨hsource, h⟩ | ⟨-, h⟩
    · obtain ⟨rfl, rfl⟩ := yields_pure.mp h
      refine ⟨.stays, ?_⟩
      rintro _ _ ⟨⟩
      exact hsource
    · obtain ⟨rfl, rfl⟩ := yields_spill.mp h
      exact ⟨.spilled rfl rfl rfl, fun _ _ => nofun⟩
  · rename_i hother
    obtain ⟨rfl, rfl⟩ := yields_pure.mp h
    exact ⟨.stays, fun source ty heq => absurd heq (hother source ty)⟩

/-- After merge entries were taken away from the slots of other depths, all merge entries are at
home. -/
theorem rewrites_unhook {a : Unit} (above : List Entry)
    (htidy : Tidy site s.stack (above ++ s.stack.entries))
    (h : Yields (replaceEntries (unhook site)) s a t) :
    Rewrites site s t (above ++ s.stack.entries) (above ++ t.stack.entries) ∧
      AtHome t.stack.entries.reverse := by
  refine rewrites_replaceEntries above (fun done _ => AtHome done) ?_ htidy (by simp [AtHome]) h
  intro done e rest s t e' htidy hdone hyields
  obtain ⟨hspills, hhome⟩ := spills_unhook hyields
  refine ⟨hspills.rewrites htidy, fun depth source ty hget => ?_⟩
  rcases Nat.lt_or_ge depth done.length with hlt | hge
  · rw [List.getElem?_append_left hlt] at hget
    exact hdone depth source ty hget
  · obtain ⟨hzero, heq⟩ : depth - done.length = 0 ∧ e' = .merge source ty := by
      rw [List.getElem?_append_right hge, List.getElem?_singleton] at hget
      split at hget
      · exact ⟨‹_›, Option.some.inj hget⟩
      · cases hget
    have := hhome source ty heq
    omega

/-- The elements after one in the middle. -/
theorem getElem?_middle_succ {α : Type} (pre post : List α) (x : α) (i : Nat) :
    (pre ++ x :: post)[pre.length + (i + 1)]? = post[i]? := by
  rw [List.getElem?_append_right (Nat.le_add_right _ _), Nat.add_sub_cancel_left,
    List.getElem?_cons_succ]

/-- Another element in the middle changes nothing elsewhere. -/
theorem getElem?_middle_of_ne {α : Type} {pre post : List α} {x y : α} {i : Nat}
    (h : i ≠ pre.length) : (pre ++ x :: post)[i]? = (pre ++ y :: post)[i]? := by
  rcases Nat.lt_or_gt_of_ne h with hlt | hgt
  · rw [List.getElem?_append_left hlt, List.getElem?_append_left hlt]
  · obtain ⟨k, rfl⟩ := Nat.exists_eq_add_of_lt hgt
    rw [Nat.add_assoc, getElem?_middle_succ, getElem?_middle_succ]

/-- What is known while entries are moved to the merge slots of their depths. -/
structure Settling (site : Site) (done todo : List Entry) : Prop where
  home : AtHome (done ++ todo)
  fits : (done ++ todo).length ≤ site.maxStack.toNat
  done : ∀ depth < done.length, ∃ ty, done[depth]? = some (Entry.merge depth ty)

namespace Settling

variable {above done rest : List Entry} {e : Entry}

/-- No other entry reads the merge slot that is the next to be written. -/
theorem slot?_ne (h : Settling site done (e :: rest)) (habove : ∀ x ∈ above, ∃ i ty, x = .tmp i ty)
    (htidy : Tidy site s.stack ((above ++ rest.reverse) ++ e :: done.reverse)) :
    ∀ x ∈ (above ++ rest.reverse) ++ done.reverse,
      x.slot? site ≠ some (site.maxLocals.toNat + done.length) := by
  intro x hx hslot
  have hfits : x.Fits site := htidy.fits x (by
    rcases List.mem_append.mp hx with hx | hx
    · exact List.mem_append_left _ hx
    · exact List.mem_append_right _ (List.mem_cons_of_mem _ hx))
  have hlength := h.fits
  simp only [List.length_append, List.length_cons] at hlength
  rw [List.append_assoc] at hx
  rcases List.mem_append.mp hx with hx | hx
  · obtain ⟨i, ty, rfl⟩ := habove x hx
    simp only [Entry.slot?, Site.tmpIndex, Option.some.injEq] at hslot
    omega
  obtain ⟨i, hi, hget⟩ : ∃ i ≠ done.length, (done ++ e :: rest)[i]? = some x := by
    rcases List.mem_append.mp hx with hx | hx
    · obtain ⟨j, hj⟩ := List.mem_iff_getElem?.mp (List.mem_reverse.mp hx)
      exact ⟨done.length + (j + 1), by omega, by rw [getElem?_middle_succ, hj]⟩
    · obtain ⟨j, hj⟩ := List.mem_iff_getElem?.mp (List.mem_reverse.mp hx)
      have hlt := (List.getElem?_eq_some_iff.mp hj).1
      exact ⟨j, by omega, by rw [List.getElem?_append_left hlt, hj]⟩
  cases x with
  | literal | flags => cases hslot
  | localVar | tmp =>
      simp only [Entry.slot?, Site.tmpIndex, Option.some.injEq, Entry.Fits] at hslot hfits
      omega
  | merge source ty =>
      have hsource := h.home i source ty hget
      simp only [Entry.slot?, Option.some.injEq] at hslot
      omega

/-- One more entry is in its merge slot. -/
theorem next (h : Settling site done (e :: rest)) (ty : ValueType) :
    Settling site (done ++ [.merge done.length ty]) rest := by
  refine ⟨?_, ?_, ?_⟩
  · intro depth source ty' hget
    rw [List.append_assoc, List.singleton_append] at hget
    by_cases hdepth : depth = done.length
    · subst hdepth
      rw [List.getElem?_append_right (Nat.le_refl _), Nat.sub_self, List.getElem?_cons_zero] at hget
      cases hget
      rfl
    · rw [getElem?_middle_of_ne (y := e) hdepth] at hget
      exact h.home depth source ty' hget
  · have hfits := h.fits
    simp only [List.length_append, List.length_cons, List.length_nil] at hfits ⊢
    omega
  · intro depth hdepth
    rw [List.length_append, List.length_singleton] at hdepth
    rcases Nat.lt_succ_iff_lt_or_eq.mp hdepth with hlt | rfl
    · rw [List.getElem?_append_left hlt]
      exact h.done depth hlt
    · exact ⟨ty, by simp⟩

end Settling

/-- The entries of a stack of given types, the bottom first, that is in the merge slots. -/
def merged (types : List ValueType) : List Entry :=
  (types.zipIdx.map fun (ty, depth) => Entry.merge depth ty).reverse

/-- When all entries are merge entries of their depths, the stack is in the merge slots. -/
theorem Settling.exists_merged {es : List Entry} (h : Settling site es.reverse []) :
    ∃ types, es = merged types := by
  refine ⟨es.reverse.map fun e => e.valueType?.getD .int, ?_⟩
  rw [merged, ← List.reverse_eq_iff]
  refine List.ext_getElem? fun depth => ?_
  rw [List.getElem?_map, List.getElem?_zipIdx, List.getElem?_map]
  rcases Nat.lt_or_ge depth es.reverse.length with hlt | hge
  · obtain ⟨ty, hty⟩ := h.done depth hlt
    rw [hty]
    simp [Entry.valueType?]
  · rw [List.getElem?_eq_none hge]
    rfl

/-- An entry is moved to the merge slot of its depth, unless it is there. -/
theorem yields_settle {depth : Nat} {e e' : Entry} : Yields (settle site pc depth e) s e' t ↔
    ∃ ty, e.valueType? = some ty ∧ e' = .merge depth ty ∧ (e = .merge depth ty ∧ t = s ∨
      e ≠ .merge depth ty ∧ ∃ src stack, e.operand? site = some src ∧
        s.stack.releaseEntry e = some stack ∧
        t = { s with
          stack, code := s.code.push (moveTo ty (site.maxLocals.toNat + depth) src) }) := by
  rw [settle, yields_bind]
  constructor
  · rintro ⟨ty, _, htype, h⟩
    obtain ⟨hty, rfl⟩ := yields_typeOf.mp htype
    refine ⟨ty, hty, ?_⟩
    by_cases he : e = .merge depth ty
    · simp only [ne_eq, he, not_true, if_false, yields_pure] at h
      exact ⟨h.1.symm, .inl ⟨he, h.2.symm⟩⟩
    · simp only [ne_eq, he, not_false_eq_true, if_true, yields_bind, yields_consume,
        yields_emitMove, yields_pure] at h
      obtain ⟨src, _, ⟨hsrc, stack, hrelease, rfl⟩, _, _, rfl, rfl, rfl⟩ := h
      exact ⟨rfl, .inr ⟨he, src, stack, hsrc, hrelease, rfl⟩⟩
  · rintro ⟨ty, hty, rfl, ⟨he, rfl⟩ | ⟨he, src, stack, hsrc, hrelease, rfl⟩⟩
    · exact ⟨ty, t, yields_typeOf.mpr ⟨hty, rfl⟩, by simp [he]⟩
    · refine ⟨ty, s, yields_typeOf.mpr ⟨hty, rfl⟩, ?_⟩
      simp only [ne_eq, he, not_false_eq_true, if_true]
      exact yields_bind.mpr ⟨src, _, yields_consume.mpr ⟨hsrc, stack, hrelease, rfl⟩,
        yields_bind.mpr ⟨(), _, yields_emitMove.mpr rfl, yields_pure.mpr ⟨rfl, rfl⟩⟩⟩

/-- Moving the entries, all of them at home, to the merge slots. -/
theorem rewrites_settleAll {a : Unit} {above : List Entry}
    (habove : ∀ x ∈ above, ∃ i ty, x = .tmp i ty)
    (htidy : Tidy site s.stack (above ++ s.stack.entries)) (hhome : AtHome s.stack.entries.reverse)
    (hlength : s.stack.entries.length ≤ site.maxStack.toNat)
    (h : Yields (replaceEntries (settle site pc)) s a t) :
    Rewrites site s t (above ++ s.stack.entries) (above ++ t.stack.entries) ∧
      ∃ types, t.stack.entries = merged types := by
  have hloop := rewrites_replaceEntries above (Settling site) ?_ htidy
    ⟨hhome, by simpa using hlength, by simp⟩ h
  · exact ⟨hloop.1, hloop.2.exists_merged⟩
  intro done e rest s t e' htidy hsettling hyields
  obtain ⟨ty, hty, rfl, ⟨rfl, rfl⟩ | ⟨-, src, stack, hsrc, hrelease, rfl⟩⟩ :=
    yields_settle.mp hyields
  · exact ⟨.refl htidy, hsettling.next ty⟩
  · have hdepth : done.length < site.maxStack.toNat := by
      have hfits := hsettling.fits
      simp only [List.length_append, List.length_cons] at hfits
      omega
    exact ⟨rewrites_settle htidy hty hsrc hrelease hdepth (hsettling.slot?_ne habove htidy),
      hsettling.next ty⟩

/-- A flush leaves the stack in the merge slots. Temporaries that are held, but not on the stack,
stay as they are. -/
theorem rewrites_flush {a : Unit} {above : List Entry} (habove : ∀ x ∈ above, ∃ i ty, x = .tmp i ty)
    (htidy : Tidy site s.stack (above ++ s.stack.entries))
    (hlength : s.stack.entries.length ≤ site.maxStack.toNat) (h : Yields (flush site pc) s a t) :
    Rewrites site s t (above ++ s.stack.entries) (above ++ t.stack.entries) ∧
      ∃ types, t.stack.entries = merged types := by
  obtain ⟨_, u, hunhook, hsettle⟩ := yields_bind.mp h
  obtain ⟨hrewrites, hhome⟩ := rewrites_unhook above htidy hunhook
  have hsame : u.stack.entries.length = s.stack.entries.length := by
    simpa using congrArg List.length hrewrites.types
  obtain ⟨hrewrites', hmerged⟩ :=
    rewrites_settleAll habove hrewrites.tidy hhome (by omega) hsettle
  exact ⟨hrewrites.trans fun _ => hrewrites', hmerged⟩

end SlotJit.Lowering

import SlotJit.Proofs.Lowering.Emissions
import SlotJit.Proofs.Lowering.Execution
import SlotJit.Proofs.Lowering.Faults
import SlotJit.Proofs.Lowering.Positions

/-!
# What each step of lowering does

One lemma for each step of lowering says what it does to the stack, what it emits and how it may
fail; what is known of lowered code is derived from these. For the stack, `Sound` is what lowering
keeps true: no instruction names a slot beyond the frame, and the frame is not large, since a
temporary is made only when all others are held. In the middle of an instruction some entries are
not on the stack, and some operands stand for entries that were given up; both are in hand until the
instruction is emitted. A copy that is about to be pushed may be one entry more than the stack has
room for, and so may its temporary; the push that follows fails if it is.

`Keeps` says that a step of lowering keeps `Sound`, how it changes what is in hand, that what it
emits has some property, and that its errors are about the instruction: it never gives back a
temporary that is free, and no depth falls below zero. The property is a parameter, so a lemma about
a step says what it emits by what it asks of the property. Steps are put together by `Keeps.bind`.

## Main results

* `maintains_lowerInstr`: lowering an instruction.
* `sound_lowerAt`, `position_of_lowerAt`: lowering the instruction at a position.
* `inFrame_of_lower`: lowered code stays in its frame.
* `frameSlots_of_lower`: the size of the frame.
-/

namespace SlotJit.Lowering

open SlotJit.Bytecode SlotJit.Ir SlotJit.Semantics SlotJit.Tables

variable {α β : Type} {site : Site} {pc index : Nat} {s t u : State} {e : Entry} {ty : ValueType}
  {held held' above : List Entry} {hand : List Operand} {extra extra' : Nat} {x : Lower α}
  {stack : OperandStack} {P : Emitted → Prop}

/-! ### Slots and temporaries -/

/-- All slots that an emitted instruction names are below a bound. -/
def Emitted.InFrame (count : Nat) : Emitted → Prop
  | .inst i => Semantics.InFrame count i
  | .branch .. => True

/-- There are no more temporaries than the stack can have entries, or than are held, and the slots
of the code and of the operands in hand are those of local variables, merge slots and
temporaries. -/
structure Frugal (site : Site) (held : List Entry) (hand : List Operand) (s : State) : Prop where
  few : s.stack.tmpCount ≤ max site.maxStack.toNat held.length
  code : ∀ e ∈ s.code.toList, e.InFrame (site.tmpIndex s.stack.tmpCount)
  hand : ∀ index, .slot index ∈ hand → index < site.tmpIndex s.stack.tmpCount

/-- A larger frame has the same slots and more. -/
theorem Emitted.InFrame.mono {m n : Nat} {e : Emitted} (h : e.InFrame m) (hle : m ≤ n) :
    e.InFrame n := by
  cases e with
  | inst i => exact ⟨fun index hindex => Nat.lt_of_lt_of_le (h.dst index hindex) hle,
      fun index hindex => Nat.lt_of_lt_of_le (h.args index hindex) hle⟩
  | branch => trivial

/-- A temporary that is held was made. -/
theorem Tidy.lt_tmpCount (h : Tidy site stack held) (he : .tmp index ty ∈ held) :
    index < stack.tmpCount := by
  have hmem : index ∈ stack.free ++ heldTmps held :=
    List.mem_append_right _ (List.mem_filterMap.mpr ⟨_, he, rfl⟩)
  exact List.mem_range.mp (h.owned.mem_iff.mp hmem)

/-- There are no more temporaries than were there and are held after one was taken. -/
theorem Tidy.alloc_tmpCount (h : Tidy site stack held) :
    stack.alloc.1 < stack.alloc.2.tmpCount ∧ stack.tmpCount ≤ stack.alloc.2.tmpCount ∧
      stack.alloc.2.tmpCount ≤ max stack.tmpCount (held.length + 1) := by
  refine ⟨(h.alloc .int).1.lt_tmpCount List.mem_cons_self, ?_⟩
  unfold OperandStack.alloc
  split
  · exact ⟨Nat.le_refl _, Nat.le_max_left _ _⟩
  · rename_i hfree
    have hcount := h.owned.length_eq
    rw [hfree, List.nil_append, List.length_range] at hcount
    have hheld : (heldTmps held).length ≤ held.length := List.length_filterMap_le _ _
    exact ⟨Nat.le_succ _, by simp only; omega⟩

/-- An entry that is held can give its temporary back, which is not free. -/
theorem Tidy.exists_release (h : Tidy site stack (e :: held)) :
    ∃ stack', stack.releaseEntry e = some stack' := by
  cases e with
  | tmp index ty =>
      have hnodup : (stack.free ++ index :: heldTmps held).Nodup :=
        h.owned.nodup_iff.mpr List.nodup_range
      have hfree : index ∉ stack.free := fun hmem =>
        (List.nodup_append.mp hnodup).2.2 index hmem index List.mem_cons_self rfl
      exact ⟨_, if_neg hfree⟩
  | literal | localVar | merge | flags => exact ⟨stack, rfl⟩

namespace Frugal

/-- Frugality is about temporaries and code alone. -/
theorem congr (h : Frugal site held hand s) (hcount : t.stack.tmpCount = s.stack.tmpCount)
    (hcode : t.code = s.code) : Frugal site held hand t :=
  ⟨hcount ▸ h.few, by rw [hcount, hcode]; exact h.code, hcount ▸ h.hand⟩

/-- Of the held entries only the number matters, and that only if they are more than the stack can
have. -/
theorem recount (h : Frugal site held hand s)
    (hlength : held.length ≤ max site.maxStack.toNat held'.length) : Frugal site held' hand s := by
  have hfew := h.few
  exact ⟨by omega, h.code, h.hand⟩

/-- The operand of an entry that is held. -/
theorem operand {a : Operand} (h : Frugal site held hand s) (htidy : Tidy site s.stack held)
    (he : e ∈ held) (ha : e.operand? site = some a) : Frugal site held (a :: hand) s := by
  refine ⟨h.few, h.code, fun index hindex => ?_⟩
  rcases List.mem_cons.mp hindex with rfl | hindex
  · have hfits := htidy.fits e he
    cases e with
    | flags => cases ha
    | literal l => cases l <;> cases ha
    | localVar | merge =>
        cases ha
        simp only [Entry.Fits, Site.tmpIndex] at hfits ⊢
        omega
    | tmp =>
        cases ha
        exact Nat.add_lt_add_left (htidy.lt_tmpCount he) _
  · exact h.hand index hindex

/-- A temporary was taken for one more entry, or in place of one that holds none. -/
theorem alloc {rest : List Entry} (h : Frugal site held hand s) (htidy : Tidy site s.stack rest)
    (hrest : rest.length < held'.length) (hheld : held.length ≤ held'.length) :
    Frugal site held' (site.tmpSlot s.stack.alloc.1 :: hand)
      { s with stack := s.stack.alloc.2 } := by
  obtain ⟨hindex, hmore, hmost⟩ := htidy.alloc_tmpCount
  have hle : site.tmpIndex s.stack.tmpCount ≤ site.tmpIndex s.stack.alloc.2.tmpCount :=
    Nat.add_le_add_left hmore _
  refine ⟨?_, fun e he => (h.code e he).mono hle, fun index hmem => ?_⟩
  · have hfew := h.few
    simp only
    omega
  · rcases List.mem_cons.mp hmem with heq | hmem
    · cases heq
      exact Nat.add_lt_add_left hindex _
    · exact Nat.lt_of_lt_of_le (h.hand index hmem) hle

/-- An instruction on operands in hand was emitted. -/
theorem emit {inst : Inst} (h : Frugal site held hand s)
    (hinst : ∀ index, .slot index ∈ inst.dst.toList ++ inst.args → .slot index ∈ hand) :
    Frugal site held hand { s with code := s.code.push (.inst inst) } := by
  refine ⟨h.few, fun e he => ?_, h.hand⟩
  rw [Array.toList_push, List.mem_append, List.mem_singleton] at he
  rcases he with he | rfl
  · exact h.code e he
  · exact ⟨fun index hdst => h.hand index (hinst index (List.mem_append_left _ (by simp [hdst]))),
      fun index harg => h.hand index (hinst index (List.mem_append_right _ harg))⟩

/-- Operands need not be in hand. -/
theorem drop {hand' : List Operand} (h : Frugal site held hand s) (hsub : hand' ⊆ hand) :
    Frugal site held hand' s :=
  ⟨h.few, h.code, fun index hindex => h.hand index (hsub hindex)⟩

end Frugal

/-! ### Steps that keep the code in its frame -/

/-- What lowering keeps true, given the entries and operands in hand. Together with those on the
stack there are at most some extra entries more than the stack can have. -/
structure Sound (site : Site) (extra : Nat) (above : List Entry) (hand : List Operand) (s : State) :
    Prop where
  holds : Holds site s (above ++ s.stack.entries)
  frugal : Frugal site (above ++ s.stack.entries) hand s
  room : (above ++ s.stack.entries).length ≤ site.maxStack.toNat + extra

/-- Between two instructions nothing is in hand. -/
abbrev Orderly (site : Site) (s : State) : Prop := Sound site 0 [] [] s

/-- A step of lowering keeps `Sound`, emits instructions with a property and fails only with errors
about the instruction at a position; what is in hand afterwards depends on its result. -/
structure Keeps (site : Site) (pc : Nat) (P : Emitted → Prop) (extra : Nat) (above : List Entry)
    (hand : List Operand) (x : Lower α) (extra' : Nat) (above' : α → List Entry)
    (hand' : α → List Operand) : Prop where
  yields : ∀ s a t, Sound site extra above hand s → Yields x s a t →
    Sound site extra' (above' a) (hand' a) t ∧ Grows P s t
  fails : ∀ s error, Sound site extra above hand s → Fails x s error → error.position? = some pc

/-- A step with nothing in hand before and after. -/
abbrev Maintains (site : Site) (pc : Nat) (P : Emitted → Prop) (x : Lower α) : Prop :=
  Keeps site pc P 0 [] [] x 0 (fun _ => []) fun _ => []

namespace Sound

/-- The stack has no more entries than it may have words. -/
theorem length_le (h : Sound site extra above hand s) :
    s.stack.entries.length ≤ site.maxStack.toNat :=
  Nat.le_trans (length_le_words _) (h.holds.words ▸ h.holds.depth)

/-- With nothing in hand there is no entry too many. -/
theorem close (h : Sound site extra [] hand s) : Sound site 0 [] hand s :=
  ⟨h.holds, h.frugal, h.length_le⟩

/-- Entries may be in hand or on the stack, in any order. -/
theorem of_perm {above' : List Entry} (h : Sound site extra above hand s)
    (hperm : (above ++ s.stack.entries).Perm (above' ++ t.stack.entries))
    (hholds : Holds site t (above ++ s.stack.entries))
    (hcount : t.stack.tmpCount = s.stack.tmpCount)
    (hcode : t.code = s.code) : Sound site extra above' hand t := by
  have hlength := hperm.length_eq
  exact ⟨hholds.perm hperm, (h.frugal.congr hcount hcode).recount (by omega), hlength ▸ h.room⟩

/-- An entry that holds no temporary may be taken in hand. -/
theorem hold (h : Sound site extra above hand s) (htmp : e.tmp? = none) (hfits : e.Fits site) :
    Sound site (extra + 1) (e :: above) hand s := by
  have hroom := h.room
  refine ⟨⟨h.holds.tidy.add htmp hfits, h.holds.words, h.holds.depth, h.holds.recorded⟩,
    h.frugal.recount ?_, ?_⟩
  · simp only [List.cons_append, List.length_cons]
    omega
  · simp only [List.cons_append, List.length_cons]
    omega

/-- An entry that holds no temporary need not be kept in hand. -/
theorem drop (h : Sound site 0 (e :: above) hand s) (htmp : e.tmp? = none) :
    Sound site 0 above hand s := by
  have hroom := h.room
  refine ⟨⟨h.holds.tidy.drop htmp, h.holds.words, h.holds.depth, h.holds.recorded⟩,
    h.frugal.recount ?_, ?_⟩
  · omega
  · simp only [List.cons_append, List.length_cons] at hroom
    omega

/-- The operand of an entry in hand. -/
theorem operand {a : Operand} (h : Sound site extra above hand s) (he : e ∈ above)
    (ha : e.operand? site = some a) : Sound site extra above (a :: hand) s :=
  ⟨h.holds, h.frugal.operand h.holds.tidy (List.mem_append_left _ he) ha, h.room⟩

/-- Entries were replaced by others of the same types. -/
theorem rewrites (h : Sound site extra above hand s)
    (hrewrites : Rewrites site s t (above ++ s.stack.entries) (above ++ t.stack.entries))
    (hfrugal : Frugal site (above ++ t.stack.entries) hand t) : Sound site extra above hand t := by
  have hlength : (above ++ t.stack.entries).length = (above ++ s.stack.entries).length := by
    simpa using congrArg List.length hrewrites.types
  exact ⟨h.holds.rewrites hrewrites, hfrugal, hlength ▸ h.room⟩

end Sound

section Keeps

variable {above' : α → List Entry} {hand' : α → List Operand}

/-- What is in hand after a step. -/
theorem Keeps.sound {a : α} (h : Keeps site pc P extra above hand x extra' above' hand')
    (hs : Sound site extra above hand s) (hyields : Yields x s a t) :
    Sound site extra' (above' a) (hand' a) t :=
  (h.yields s a t hs hyields).1

/-- What a step emits. -/
theorem Keeps.grows {a : α} (h : Keeps site pc P extra above hand x extra' above' hand')
    (hs : Sound site extra above hand s) (hyields : Yields x s a t) : Grows P s t :=
  (h.yields s a t hs hyields).2

/-- The next step may use a fact about what the one before gave. -/
theorem Keeps.bind_of {f : α → Lower β} {extra₂ : Nat} {above₂ : β → List Entry}
    {hand₂ : β → List Operand} {fact : α → Prop}
    (hx : Keeps site pc P extra above hand x extra' above' hand')
    (hfact : ∀ s a t, Yields x s a t → fact a)
    (hf : ∀ a, fact a → Keeps site pc P extra' (above' a) (hand' a) (f a) extra₂ above₂ hand₂) :
    Keeps site pc P extra above hand (x >>= f) extra₂ above₂ hand₂ := by
  refine ⟨fun s b t hs h => ?_, fun s error hs h => ?_⟩
  · obtain ⟨a, u, ha, hb⟩ := yields_bind.mp h
    obtain ⟨hu, hgrows⟩ := hx.yields s a u hs ha
    obtain ⟨ht, hgrows'⟩ := (hf a (hfact s a u ha)).yields u b t hu hb
    exact ⟨ht, hgrows.trans hgrows'⟩
  · rcases fails_bind.mp h with h | ⟨a, u, ha, h⟩
    · exact hx.fails s error hs h
    · exact (hf a (hfact s a u ha)).fails u error (hx.sound hs ha) h

/-- One step after the other. -/
theorem Keeps.bind {f : α → Lower β} {extra₂ : Nat} {above₂ : β → List Entry}
    {hand₂ : β → List Operand} (hx : Keeps site pc P extra above hand x extra' above' hand')
    (hf : ∀ a, Keeps site pc P extra' (above' a) (hand' a) (f a) extra₂ above₂ hand₂) :
    Keeps site pc P extra above hand (x >>= f) extra₂ above₂ hand₂ :=
  hx.bind_of (fun _ _ _ _ => trivial) fun a (_ : True) => hf a

/-- What a step needs follows from what is known. -/
theorem Keeps.of_imp {above₁ : List Entry} {hand₁ : List Operand} {extra₁ : Nat}
    (h : Keeps site pc P extra₁ above₁ hand₁ x extra' above' hand')
    (himp : ∀ s, Sound site extra above hand s → Sound site extra₁ above₁ hand₁ s) :
    Keeps site pc P extra above hand x extra' above' hand' :=
  ⟨fun s a t hs => h.yields s a t (himp s hs), fun s error hs => h.fails s error (himp s hs)⟩

/-- After the last push there is no entry too many. -/
theorem Keeps.close (h : Keeps site pc P extra above hand x extra' (fun _ => []) hand') :
    Keeps site pc P extra above hand x 0 (fun _ => []) hand' :=
  ⟨fun s a t hs hyields => (h.yields s a t hs hyields).imp_left Sound.close, h.fails⟩

/-- A step that emits nothing and whose errors are about the instruction, whatever the state. -/
theorem Raises.keeps (hx : Raises pc x)
    (h : ∀ s a t, Sound site extra above hand s → Yields x s a t →
      Sound site extra' (above' a) (hand' a) t ∧ t.code = s.code ∧ t.positions = s.positions) :
    Keeps site pc P extra above hand x extra' above' hand' := by
  refine ⟨fun s a t hs hyields => ?_, fun s error _ => hx s error⟩
  obtain ⟨ht, hcode, hpositions⟩ := h s a t hs hyields
  exact ⟨ht, .of_eq hcode hpositions⟩

/-- A value alone keeps the stack. -/
theorem keeps_pure {a : α} (habove : above' a = above) (hhand : hand' a ⊆ hand) :
    Keeps site pc P extra above hand (pure a) extra above' hand' := by
  refine raises_pure.keeps fun s b t hs h => ?_
  obtain ⟨rfl, rfl⟩ := yields_pure.mp h
  rw [habove]
  exact ⟨⟨hs.holds, hs.frugal.drop hhand, hs.room⟩, rfl, rfl⟩

/-- Giving a result changes nothing. -/
theorem keeps_return {a : α} :
    Keeps site pc P extra above hand (pure a) extra (fun _ => above) (fun _ => hand) :=
  keeps_pure rfl (List.Subset.refl _)

/-- Dropping the result keeps the stack. -/
theorem Keeps.discard
    (h : Keeps site pc P extra above hand x extra (fun _ => above) (fun _ => hand)) :
    Keeps site pc P extra above hand (discard x) extra (fun _ => above) (fun _ => hand) := by
  refine ⟨fun s a t hs hyields => ?_,
    fun s error hs hfails => h.fails s error hs (fails_discard.mp hfails)⟩
  obtain ⟨b, hyields⟩ := yields_discard.mp hyields
  exact h.yields s b t hs hyields

/-- A failure that names the instruction is allowed. -/
theorem keeps_throw {error : Error} (herror : error.position? = some pc) :
    Keeps site pc P extra above hand (throw error) extra' above' hand' :=
  (raises_throw herror).keeps fun _ _ _ _ h => absurd h yields_throw

/-- A step that only looks at the state. -/
theorem Raises.keeps_of_eq (hx : Raises pc x) (h : ∀ s a t, Yields x s a t → s = t) :
    Keeps site pc P extra above hand x extra (fun _ => above) (fun _ => hand) := by
  refine hx.keeps fun s a t hs hyields => ?_
  obtain rfl := h s a t hyields
  exact ⟨hs, rfl, rfl⟩

/-- Asking for a type keeps the stack. -/
theorem keeps_typeOf :
    Keeps site pc P extra above hand (typeOf pc e) extra (fun _ => above) (fun _ => hand) :=
  raises_typeOf.keeps_of_eq fun _ _ _ h => (yields_typeOf.mp h).2

/-- After the type of an entry was checked it is known. -/
theorem keeps_checkType_bind {f : Unit → Lower α}
    (hf : e.valueType? = some ty → Keeps site pc P extra above hand (f ()) extra' above' hand') :
    Keeps site pc P extra above hand (checkType pc e ty >>= f) extra' above' hand' :=
  Keeps.bind_of (raises_checkType.keeps_of_eq fun _ _ _ h => (yields_checkType.mp h).2)
    (fun _ _ _ h => (yields_checkType.mp h).1) fun _ => hf

/-- After a local variable was checked it is known to be one. -/
theorem keeps_checkLocal_bind {f : Unit → Lower α}
    (hf : index < site.maxLocals.toNat →
      Keeps site pc P extra above hand (f ()) extra' above' hand') :
    Keeps site pc P extra above hand (checkLocal site pc index ty >>= f) extra' above' hand' := by
  refine Keeps.bind_of (raises_checkLocal.keeps_of_eq fun _ _ _ h => (yields_checkLocal.mp h).2)
    (fun s a t h => (yields_checkLocal.mp h).1) fun _ hle => hf ?_
  have := words_pos ty
  omega

end Keeps

/-! ### Entries -/

/-- The entry on top comes to hand. -/
theorem keeps_pop :
    Keeps site pc P extra above hand (pop pc) extra (fun e => e :: above) (fun _ => hand) := by
  refine ⟨fun s e t hs h => ?_, fun s error hs h => ?_⟩
  · obtain ⟨hentries, hquiet⟩ := quiet_pop site (above ++ s.stack.entries) h
    obtain ⟨rest, -, -, rfl⟩ := yields_pop.mp h
    refine ⟨hs.of_perm ?_ (hquiet.holds hs.holds) rfl rfl, .of_eq rfl rfl⟩
    rw [hentries]
    exact List.perm_middle
  · -- The count of words covers the top entry, since it covers all of them.
    rcases fails_pop h with hposition | ⟨e, rest, hentries, hlt⟩
    · exact hposition
    · have hwords := hs.holds.words
      rw [hentries, List.map_cons, List.sum_cons] at hwords
      omega

/-- An entry of one word comes to hand. -/
theorem keeps_popWord :
    Keeps site pc P extra above hand (popWord pc) extra (fun e => e :: above) (fun _ => hand) := by
  refine keeps_pop.bind fun e => keeps_typeOf.bind fun ty => ?_
  split
  · exact keeps_throw rfl
  · exact keeps_pure rfl (List.Subset.refl _)

/-- An entry goes back to the stack. -/
theorem keeps_push :
    Keeps site pc P extra (e :: above) hand (push site pc e) extra (fun _ => above)
      (fun _ => hand) := by
  refine raises_push.keeps fun s a t hs h => ?_
  obtain ⟨hentries, hquiet⟩ := quiet_push (e :: above ++ s.stack.entries) h
  obtain ⟨-, rfl⟩ := yields_push.mp h
  exact ⟨hs.of_perm List.perm_middle.symm (hquiet.holds hs.holds) rfl rfl, rfl, rfl⟩

/-- An entry is pushed that is in hand among others. -/
theorem keeps_pushMiddle (pre post : List Entry) :
    Keeps site pc P extra (pre ++ e :: post) hand (push site pc e) extra (fun _ => pre ++ post)
      (fun _ => hand) :=
  keeps_push.of_imp fun s hs =>
    hs.of_perm (List.perm_middle.append_right s.stack.entries) hs.holds rfl rfl

/-- An entry that holds no temporary is pushed. -/
theorem keeps_pushEntry (htmp : e.tmp? = none) (hfits : e.Fits site) :
    Keeps site pc P extra [] hand (push site pc e) 0 (fun _ => []) (fun _ => hand) :=
  (keeps_push.of_imp fun _ hs => hs.hold htmp hfits).close

/-- What an entry holds is released. -/
theorem keeps_releaseEntry :
    Keeps site pc P 0 (e :: above) hand (releaseEntry e) 0 (fun _ => above) (fun _ => hand) := by
  refine ⟨fun s a t hs h => ?_, fun s error hs h => ?_⟩
  · obtain ⟨hentries, hquiet⟩ := quiet_release site (above ++ s.stack.entries) h
    obtain ⟨stack, hrelease, rfl⟩ := yields_releaseEntry.mp h
    have ht := hquiet.holds hs.holds
    rw [← hentries] at ht
    have hroom := hs.room
    have hfrugal : Frugal site (e :: above ++ s.stack.entries) hand { s with stack } :=
      hs.frugal.congr (releaseEntry_frame hrelease).2.2 rfl
    refine ⟨⟨ht, hfrugal.recount (by omega), ?_⟩, .of_eq rfl rfl⟩
    rw [hentries]
    simp only [List.cons_append, List.length_cons] at hroom
    omega
  · obtain ⟨stack, hrelease⟩ := hs.holds.tidy.exists_release
    cases (fails_releaseEntry h).symm.trans hrelease

/-- The operand of an entry that is used up stays in hand. -/
theorem keeps_consume :
    Keeps site pc P 0 (e :: above) hand (consume site pc e) 0 (fun _ => above)
      (fun a => a :: hand) := by
  have hoperand : Keeps site pc P 0 (e :: above) hand (operandOf site pc e) 0 (fun _ => e :: above)
      (fun a => a :: hand) := by
    refine raises_operandOf.keeps fun s a t hs h => ?_
    obtain ⟨ha, rfl⟩ := yields_operandOf.mp h
    exact ⟨hs.operand List.mem_cons_self ha, rfl, rfl⟩
  exact hoperand.bind fun _ => keeps_releaseEntry.bind fun _ => keeps_pure rfl (List.Subset.refl _)

/-- The operand is known to stand for an entry of a type. -/
theorem keeps_consume_bind {f : Operand → Lower α} {above' : α → List Entry}
    {hand' : α → List Operand} (hty : e.valueType? = some ty)
    (hf : ∀ a, Stands site ty a →
      Keeps site pc P 0 above (a :: hand) (f a) extra' above' hand') :
    Keeps site pc P 0 (e :: above) hand (consume site pc e >>= f) extra' above' hand' :=
  keeps_consume.bind_of (fun _ _ _ h => ⟨e, hty, (yields_consume.mp h).1⟩) hf

/-- The operand of the entry on top comes to hand. -/
theorem keeps_popTyped :
    Keeps site pc P 0 above hand (popTyped site pc ty) 0 (fun _ => above) (fun a => a :: hand) :=
  keeps_pop.bind fun _ => keeps_checkType_bind fun _ => keeps_consume

/-- A popped operand is known to stand for an entry of the type that was asked for. -/
theorem keeps_popTyped_bind {f : Operand → Lower α} {above' : α → List Entry}
    {hand' : α → List Operand}
    (hf : ∀ a, Stands site ty a → Keeps site pc P 0 above (a :: hand) (f a) extra' above' hand') :
    Keeps site pc P 0 above hand (popTyped site pc ty >>= f) extra' above' hand' :=
  keeps_popTyped.bind_of (fun _ _ _ => stands_of_popTyped) hf

/-- The operands that are popped one after the other stay in hand. -/
theorem keeps_popAll {types : List ValueType} :
    Keeps site pc P 0 above hand (types.mapM (popTyped site pc)) 0 (fun _ => above)
      (fun args => args ++ hand) := by
  induction types generalizing hand with
  | nil =>
      rw [List.mapM_nil]
      exact keeps_pure rfl (List.Subset.refl _)
  | cons ty types ih =>
      rw [List.mapM_cons]
      exact keeps_popTyped.bind fun a => ih.bind fun args =>
        keeps_pure rfl fun x hx => by simpa [or_left_comm] using hx

/-- A new temporary is in hand, both as an entry and as an operand. -/
theorem keeps_takeTmp (ty : ValueType) :
    Keeps site pc P extra above hand takeTmp (extra + 1) (fun index => .tmp index ty :: above)
      (fun index => site.tmpSlot index :: hand) := by
  refine Raises.keeps (raises_of_not_fails fun _ _ => fails_modifyGet) fun s index t hs h => ?_
  obtain ⟨rfl, rfl⟩ := yields_takeTmp.mp h
  obtain ⟨hentries, hwords⟩ := alloc_frame s.stack
  have hroom := hs.room
  refine ⟨⟨⟨?_, ?_, hwords ▸ hs.holds.depth, hs.holds.recorded⟩, ?_, ?_⟩, rfl, rfl⟩
  · rw [hentries]
    exact (hs.holds.tidy.alloc ty).1
  · rw [hentries, hwords]
    exact hs.holds.words
  · refine hs.frugal.alloc hs.holds.tidy ?_ ?_ <;> simp [hentries]
  · simp only [hentries, List.cons_append, List.length_cons]
    omega

/-- A new temporary comes to hand. -/
theorem keeps_pushTmp :
    Keeps site pc P extra [] hand (pushTmp site pc ty) 0 (fun _ => []) (fun a => a :: hand) := by
  have h : Keeps site pc P extra [] hand (pushTmp site pc ty) (extra + 1) (fun _ => [])
      (fun a => a :: hand) :=
    (keeps_takeTmp ty).bind fun _ => keeps_push.bind fun _ => keeps_pure rfl (List.Subset.refl _)
  exact h.close

/-! ### Instructions that are emitted -/

/-- An instruction is emitted on operands in hand, which are not needed after it. -/
theorem keeps_emit {inst : Inst} (hP : P (.inst inst))
    (hinst : ∀ index, .slot index ∈ inst.dst.toList ++ inst.args → .slot index ∈ hand) :
    Keeps site pc P extra above hand (emit inst) extra (fun _ => above) (fun _ => []) := by
  refine ⟨fun s a t hs h => ?_, fun s error _ h => absurd h fails_modify⟩
  obtain rfl := yields_emit.mp h
  exact ⟨⟨hs.holds.congr rfl rfl, (hs.frugal.emit hinst).drop (List.nil_subset _), hs.room⟩,
    .push rfl hP, rfl⟩

/-- A copy of an entry in hand; that of a temporary is emitted. -/
theorem keeps_duplicate (hP : ∀ e : Emitted, e.Spill site → P e) (he : e ∈ above) :
    Keeps site pc P extra above [] (duplicate site pc e) (extra + 1) (fun copy => copy :: above)
      (fun _ => []) := by
  cases e with
  | flags => exact keeps_throw rfl
  | literal | localVar | merge =>
      refine raises_pure.keeps fun s copy t hs h => ?_
      obtain ⟨rfl, rfl⟩ := yields_pure.mp h
      exact ⟨hs.hold rfl (hs.holds.tidy.fits _ (List.mem_append_left _ he)), rfl, rfl⟩
  | tmp index ty =>
      have hstands : Stands site ty (site.tmpSlot index) := ⟨.tmp index ty, rfl, rfl⟩
      have hcopy : Keeps site pc P extra above [site.tmpSlot index]
          (duplicate site pc (.tmp index ty)) (extra + 1) (fun copy => copy :: above)
          (fun _ => []) :=
        (keeps_takeTmp ty).bind fun copy =>
          (keeps_emit (hP _ ⟨ty, copy, _, hstands, rfl⟩) (by simp [Site.tmpSlot])).bind fun _ =>
            keeps_pure rfl (List.Subset.refl _)
      exact hcopy.of_imp fun s hs => hs.operand he rfl

/-! ### Loops over the stack -/

/-- A step that replaces one of the held entries keeps the code in its frame and fails only with
errors about the instruction. It is given the number of entries below the one that it replaces. -/
structure Replaces (site : Site) (pc : Nat) (P : Emitted → Prop) (hand : List Operand)
    (f : Nat → Entry → Lower Entry) : Prop where
  kept : ∀ pre e post s t e', post.length < site.maxStack.toNat →
    Tidy site s.stack (pre ++ e :: post) → Frugal site (pre ++ e :: post) hand s →
    Yields (f post.length e) s e' t → Tidy site t.stack (pre ++ e' :: post) ∧
      Frugal site (pre ++ e' :: post) hand t ∧ Grows P s t
  fails : ∀ pre e post s error, Tidy site s.stack (pre ++ e :: post) →
    Fails (f post.length e) s error → error.position? = some pc

/-- Replacing entries one after the other, the bottom one first. -/
theorem Replaces.mapM {f : Nat → Entry → Lower Entry} (hf : Replaces site pc P hand f)
    {done todo : List Entry} (hlength : (done ++ todo).length ≤ site.maxStack.toNat)
    (htidy : Tidy site s.stack (above ++ (done ++ todo).reverse))
    (hs : Frugal site (above ++ (done ++ todo).reverse) hand s) :
    (∀ out t, Yields ((todo.zipIdx done.length).mapM fun (e, depth) => f depth e) s out t →
        Frugal site (above ++ (done ++ out).reverse) hand t ∧ Grows P s t) ∧
      ∀ error, Fails ((todo.zipIdx done.length).mapM fun (e, depth) => f depth e) s error →
        error.position? = some pc := by
  induction todo generalizing done s with
  | nil =>
      refine ⟨fun out t h => ?_, fun error h => absurd h fails_mapM_nil⟩
      obtain ⟨rfl, rfl⟩ := yields_mapM_nil.mp h
      exact ⟨hs, .of_eq rfl rfl⟩
  | cons e rest ih =>
      have hsplit : ∀ x : Entry, above ++ (done ++ x :: rest).reverse =
          (above ++ rest.reverse) ++ x :: done.reverse := fun x => by simp
      have hdone : done.length = done.reverse.length := List.length_reverse.symm
      rw [List.length_append, List.length_cons] at hlength
      rw [hsplit] at htidy hs
      -- What the step leaves is what the rest of the loop starts with.
      have hnext : ∀ e' u, Yields (f done.length e) s e' u →
          Tidy site u.stack (above ++ (done ++ [e'] ++ rest).reverse) ∧
            Frugal site (above ++ (done ++ [e'] ++ rest).reverse) hand u ∧ Grows P s u := by
        intro e' u hfirst
        rw [List.append_assoc, List.singleton_append, hsplit]
        rw [hdone] at hfirst
        exact hf.kept _ e _ s u e' (by simp; omega) htidy hs hfirst
      have hcount : ∀ e' : Entry, done.length + 1 = (done ++ [e']).length := fun e' => by simp
      refine ⟨fun out t h => ?_, fun error h => ?_⟩
      · obtain ⟨e', out, u, hfirst, hrest, rfl⟩ := yields_mapM_cons.mp h
        obtain ⟨htidy', hu, hgrows⟩ := hnext e' u hfirst
        rw [hcount e'] at hrest
        obtain ⟨ht, hgrows'⟩ := (ih (by simp; omega) htidy' hu).1 out t hrest
        rw [List.append_assoc, List.singleton_append] at ht
        exact ⟨ht, hgrows.trans hgrows'⟩
      · rcases fails_mapM_cons.mp h with h | ⟨e', u, hfirst, h⟩
        · rw [hdone] at h
          exact hf.fails _ e _ s error htidy h
        · obtain ⟨htidy', hu, -⟩ := hnext e' u hfirst
          rw [hcount e'] at h
          exact (ih (by simp; omega) htidy' hu).2 error h

/-- Replacing the entries of the stack. -/
theorem Replaces.replaceEntries {f : Nat → Entry → Lower Entry} (hf : Replaces site pc P hand f)
    (hs : Sound site extra above hand s) :
    (∀ a t, Yields (replaceEntries f) s a t →
        Frugal site (above ++ t.stack.entries) hand t ∧ Grows P s t) ∧
      ∀ error, Fails (Lowering.replaceEntries f) s error → error.position? = some pc := by
  have hentries : above ++ ([] ++ s.stack.entries.reverse).reverse = above ++ s.stack.entries := by
    simp
  have htidy : Tidy site s.stack (above ++ ([] ++ s.stack.entries.reverse).reverse) :=
    hentries.symm ▸ hs.holds.tidy
  obtain ⟨hkept, hfails⟩ := hf.mapM (by simpa using hs.length_le) htidy (hentries.symm ▸ hs.frugal)
  refine ⟨fun a t h => ?_, fun error h => ?_⟩
  · rw [Lowering.replaceEntries, yields_get_bind] at h
    obtain ⟨out, u, hloop, hset⟩ := yields_bind.mp h
    obtain rfl := yields_modify.mp hset
    obtain ⟨hfrugal, hgrows⟩ := hkept out u hloop
    exact ⟨hfrugal.congr rfl rfl, hgrows.trans (.of_eq rfl rfl)⟩
  · rw [Lowering.replaceEntries, fails_get_bind] at h
    rcases fails_bind.mp h with h | ⟨out, u, -, h⟩
    · exact hfails error h
    · exact absurd h fails_modify

/-- A loop over the stack that changes where values are and not what they are. -/
theorem Replaces.keeps {f : Nat → Entry → Lower Entry} (hf : Replaces site pc P hand f)
    (hrewrites : ∀ s a t, Tidy site s.stack (above ++ s.stack.entries) →
      Yields (Lowering.replaceEntries f) s a t →
        Rewrites site s t (above ++ s.stack.entries) (above ++ t.stack.entries)) :
    Keeps site pc P extra above hand (Lowering.replaceEntries f) extra (fun _ => above)
      (fun _ => hand) := by
  refine ⟨fun s a t hs h => ?_, fun s error hs h => (hf.replaceEntries hs).2 error h⟩
  obtain ⟨hfrugal, hgrows⟩ := (hf.replaceEntries hs).1 a t h
  exact ⟨hs.rewrites (hrewrites s a t hs.holds.tidy h) hfrugal, hgrows⟩

/-- An entry that holds no temporary may be copied to a new one. -/
theorem Spills.frugal {pre post : List Entry} {e' : Entry} (hP : ∀ e : Emitted, e.Spill site → P e)
    (h : Spills site e s e' t) (htidy : Tidy site s.stack (pre ++ e :: post))
    (hs : Frugal site (pre ++ e :: post) hand s) : Tidy site t.stack (pre ++ e' :: post) ∧
      Frugal site (pre ++ e' :: post) hand t ∧ Grows P s t := by
  refine ⟨(h.rewrites htidy).tidy, ?_⟩
  cases h with
  | stays => exact ⟨hs, .of_eq rfl rfl⟩
  | spilled htmp hty hsrc =>
      have hrest := (htidy.perm List.perm_middle).drop htmp
      have hoperand := hs.operand htidy (List.mem_append_right _ List.mem_cons_self) hsrc
      refine ⟨((hoperand.alloc hrest (by simp) (by simp)).emit ?_).drop fun x hx => ?_,
        .push rfl (hP _ ⟨_, _, _, ⟨e, hty, hsrc⟩, rfl⟩), rfl⟩
      · intro index hindex
        exact List.mem_append_left hand hindex
      · exact List.mem_cons_of_mem _ (List.mem_cons_of_mem _ hx)

/-- Copying to a new temporary never fails. -/
theorem fails_spill {src : Operand} {error : Error} : ¬ Fails (do
    let index ← takeTmp
    emitMove ty (site.tmpSlot index) src
    return Entry.tmp index ty) s error := by
  simp [takeTmp, emitMove, emit]

/-- The entries of a local variable are spilled. -/
theorem keeps_saveLocal (hP : ∀ e : Emitted, e.Spill site → P e)
    (hindex : index < site.maxLocals.toNat) :
    Keeps site pc P extra above hand (saveLocal site index) extra (fun _ => above)
      (fun _ => hand) := by
  rw [saveLocal_eq]
  refine Replaces.keeps ⟨fun pre e post s t e' _ htidy hs h => ?_, fun pre e post s error _ h => ?_⟩
    fun s a t htidy h => (rewrites_saveLocal hindex htidy h).1
  · exact (spills_saveEntry h).1.frugal hP htidy hs
  · unfold saveEntry at h
    split at h
    · rcases fails_ite.mp h with ⟨-, h⟩ | ⟨-, h⟩
      · exact absurd h fails_spill
      · exact absurd h fails_pure
    · exact absurd h fails_pure

/-- Taking entries away from the merge slots of other depths. -/
theorem replaces_unhook (hP : ∀ e : Emitted, e.Spill site → P e) :
    Replaces site pc P hand (unhook site) := by
  refine ⟨fun pre e post s t e' _ htidy hs h => (spills_unhook h).1.frugal hP htidy hs,
    fun pre e post s error _ h => ?_⟩
  unfold unhook at h
  split at h
  · rcases fails_ite.mp h with ⟨-, h⟩ | ⟨-, h⟩
    · exact absurd h fails_pure
    · exact absurd h fails_spill
  · exact absurd h fails_pure

/-- Moving the entries to the merge slots. -/
theorem replaces_settle (hP : ∀ e : Emitted, e.Shift site → P e) :
    Replaces site pc P hand (settle site pc) := by
  refine ⟨fun pre e post s t e' hdepth htidy hs h => ?_, fun pre e post s error htidy h => ?_⟩
  · obtain ⟨ty, hty, rfl, ⟨rfl, rfl⟩ | ⟨-, src, stack, hsrc, hrelease, rfl⟩⟩ := yields_settle.mp h
    · exact ⟨htidy, hs, .of_eq rfl rfl⟩
    have hreleased := (htidy.perm List.perm_middle).release hrelease
    have hmerge : Entry.Fits site (.merge post.length ty) := hdepth
    refine ⟨(hreleased.add rfl hmerge).perm List.perm_middle.symm, ?_,
      .push rfl (hP _ (.inr ⟨ty, _, src, ⟨e, hty, hsrc⟩, rfl⟩)), rfl⟩
    -- Both slots of the move, that of the entry and its merge slot, are in the frame.
    have hslots : Frugal site (pre ++ .merge post.length ty :: post)
        (site.mergeSlot post.length :: src :: hand) { s with stack } := by
      have hoperand : Frugal site (pre ++ e :: post) (src :: hand) { s with stack } :=
        (hs.operand htidy (List.mem_append_right _ List.mem_cons_self) hsrc).congr
          (releaseEntry_frame hrelease).2.2 rfl
      have hsame : Frugal site (pre ++ .merge post.length ty :: post) (src :: hand)
          { s with stack } := hoperand.recount (by simp)
      refine ⟨hsame.few, hsame.code, fun index hindex => ?_⟩
      rcases List.mem_cons.mp hindex with heq | hindex
      · cases heq
        simp only [Site.tmpIndex]
        omega
      · exact hsame.hand index hindex
    refine Frugal.drop (hslots.emit ?_) fun x hx =>
      List.mem_cons_of_mem _ (List.mem_cons_of_mem _ hx)
    exact fun index hindex => List.mem_append_left hand hindex
  · rcases fails_bind.mp h with h | ⟨ty, u, htype, h⟩
    · exact raises_typeOf s error h
    · obtain ⟨-, rfl⟩ := yields_typeOf.mp htype
      simp only [emitMove, emit, fails_ite, fails_bind, fails_modify, fails_pure, and_false,
        exists_false, or_false] at h
      obtain ⟨stack, hrelease⟩ := (htidy.perm List.perm_middle).exists_release
      rcases fails_consume h.2 with hposition | hnone
      · exact hposition
      · cases hnone.symm.trans hrelease

/-- A flush moves the entries to the merge slots. -/
theorem keeps_flush (hP : ∀ e : Emitted, e.Shift site → P e) :
    Keeps site pc P extra [] hand (flush site pc) 0 (fun _ => []) (fun _ => hand) := by
  have hunhook : Keeps site pc P extra [] hand (replaceEntries (unhook site)) extra (fun _ => [])
      (fun _ => hand) :=
    (replaces_unhook fun e he => hP e (.inl he)).keeps
      fun s a t htidy h => (rewrites_unhook [] htidy h).1
  refine ⟨fun s a t hs h => ?_, fun s error hs h => ?_⟩
  · have hrewrites : Rewrites site s t s.stack.entries t.stack.entries :=
      (rewrites_flush (fun _ hx => absurd hx List.not_mem_nil) hs.holds.tidy hs.length_le h).1
    obtain ⟨_, u, hfirst, hsecond⟩ := yields_bind.mp h
    obtain ⟨hu, hgrows⟩ := hunhook.yields s () u hs hfirst
    obtain ⟨hfrugal, hgrows'⟩ := ((replaces_settle hP).replaceEntries hu).1 a t hsecond
    exact ⟨(hs.rewrites hrewrites hfrugal).close, hgrows.trans hgrows'⟩
  · rcases fails_bind.mp h with h | ⟨_, u, hfirst, h⟩
    · exact hunhook.fails s error hs h
    · exact ((replaces_settle hP).replaceEntries (hunhook.sound hs hfirst)).2 error h

/-- Flushing the stack and recording it for a target. -/
theorem keeps_flush_record {target : Nat} (hP : ∀ e : Emitted, e.Shift site → P e) :
    Keeps site pc P extra [] hand (do flush site pc; recordEntry pc target) 0 (fun _ => [])
      (fun _ => hand) := by
  refine ⟨fun s a t hs h => ?_, fun s error hs h => ?_⟩
  · obtain ⟨_, u, hflush, hrecord⟩ := yields_bind.mp h
    obtain ⟨types, henters⟩ := enters_of_flush hs.holds hflush hrecord
    obtain ⟨hu, hgrows⟩ := (keeps_flush hP).yields s () u hs hflush
    obtain ⟨_, _, ⟨_, rfl⟩ | ⟨_, rfl⟩⟩ := yields_recordEntry.mp hrecord
    · exact ⟨⟨henters.holds, hu.frugal, hu.room⟩, hgrows⟩
    · exact ⟨⟨henters.holds, hu.frugal.congr rfl rfl, hu.room⟩, hgrows.trans (.of_eq rfl rfl)⟩
  · rcases fails_bind.mp h with h | ⟨_, u, -, h⟩
    · exact (keeps_flush hP).fails s error hs h
    · exact raises_recordEntry u error h

/-- A branch comes after the moves of a flush. -/
theorem keeps_emitBranch {condition : Option Condition} {displacement : Int}
    (hP : ∀ e : Emitted, e.Shift site → P e)
    (hbranch : P (.branch condition pc (pc + displacement).toNat)) :
    Keeps site pc P extra [] hand (emitBranch site pc condition displacement) 0 (fun _ => [])
      (fun _ => hand) := by
  have hemit : Keeps site pc P 0 [] hand (modify fun s : State =>
      { s with code := s.code.push (.branch condition pc (pc + displacement).toNat) }) 0
      (fun _ => []) (fun _ => hand) := by
    refine ⟨fun s a t hs h => ?_, fun s error _ h => absurd h fails_modify⟩
    obtain rfl := yields_modify.mp h
    refine ⟨⟨hs.holds.congr rfl rfl, ⟨hs.frugal.few, fun e he => ?_, hs.frugal.hand⟩, hs.room⟩,
      .push rfl hbranch, rfl⟩
    rw [Array.toList_push, List.mem_append, List.mem_singleton] at he
    rcases he with he | rfl
    · exact hs.frugal.code e he
    · trivial
  have hflush : Keeps site pc P extra [] hand
      (do flush site pc; recordEntry pc (pc + displacement).toNat) 0 (fun _ => [])
      (fun _ => hand) :=
    keeps_flush_record hP
  have h := hflush.bind fun _ => hemit
  rwa [bind_assoc] at h

/-! ### All instructions -/

/-- The operand of an optional step stays in hand, if there is one. -/
theorem keeps_optional {f : ValueType → Lower Operand} {types : Option ValueType}
    (hf : ∀ ty, Keeps site pc P 0 above hand (f ty) 0 (fun _ => above) (fun a => a :: hand)) :
    Keeps site pc P 0 above hand (types.mapM f) 0 (fun _ => above) (fun a => a.toList ++ hand) := by
  cases types with
  | none => exact keeps_pure rfl (List.Subset.refl _)
  | some ty =>
      refine ⟨fun s a t hs h => ?_, fun s error hs h => (hf ty).fails s error hs (fails_map.mp h)⟩
      obtain ⟨a, hyields, rfl⟩ := yields_map.mp h
      exact (hf ty).yields s a t hs hyields

/-- An operation pops its operands, pushes a temporary for its result and emits one instruction. -/
theorem maintains_lowerOperation {kind : Kind} {front : List Operand} {op : Operation}
    (hfront : ∀ index, .slot index ∉ front)
    (hP : ∀ args index, List.Forall₂ (Stands site) op.params args →
      (op.params.map ValueType.words).sum ≤ site.maxStack.toNat → P (.inst
        { kind, dst := op.result.map fun _ => site.tmpSlot index, args := front ++ args })) :
    Maintains site pc P (lowerOperation site pc kind front op) := by
  have hkept : Maintains site pc (fun _ => True) (lowerOperation site pc kind front op) :=
    keeps_popAll.bind fun _ => (keeps_optional fun _ => keeps_pushTmp).bind fun _ =>
      keeps_emit trivial (by simp [hfront])
  refine ⟨fun s a t hs h => ⟨hkept.sound hs h, ?_⟩, hkept.fails⟩
  simp only [lowerOperation, yields_bind, yields_emit] at h
  obtain ⟨args, u, hpop, dst, v, hresult, rfl⟩ := h
  obtain ⟨hargs, hcode, hpositions, hsum⟩ := operands_of_popAll hpop
  obtain ⟨⟨index, rfl⟩, hcode', hpositions'⟩ := exists_result hresult
  refine ⟨.push (by rw [hcode', hcode]) (hP args.reverse index ?_ ?_), hpositions'.trans hpositions⟩
  · rw [← List.reverse_reverse op.params]
    exact List.forall₂_reverse_iff.mpr hargs
  · have hdepth := hs.holds.depth
    rw [hs.holds.words, ← hsum, List.map_reverse, List.sum_reverse] at hdepth
    omega

/-- The slot of a local variable may be taken in hand. -/
theorem Keeps.withLocal {above' : α → List Entry} {hand' : α → List Operand}
    (h : Keeps site pc P extra above (.slot index :: hand) x extra' above' hand')
    (hindex : index < site.maxLocals.toNat) :
    Keeps site pc P extra above hand x extra' above' hand' := by
  refine h.of_imp fun s hs =>
    ⟨hs.holds, ⟨hs.frugal.few, hs.frugal.code, fun slot hslot => ?_⟩, hs.room⟩
  rcases List.mem_cons.mp hslot with heq | hslot
  · cases heq
    simp only [Site.tmpIndex]
    omega
  · exact hs.frugal.hand slot hslot

/-- A store spills the entries of the variable and moves the value there, unless it is there. -/
theorem maintains_lowerStore (hspill : ∀ e : Emitted, e.Spill site → P e)
    (hmove : index < site.maxLocals.toNat → ∀ src, Stands site ty src → P (moveTo ty index src)) :
    Maintains site pc P (lowerStore site pc ty index) := by
  refine keeps_checkLocal_bind fun hindex =>
    keeps_pop.bind fun e => keeps_checkType_bind fun hty => ?_
  split
  · exact Keeps.withLocal ((keeps_saveLocal hspill hindex).bind fun _ =>
      keeps_consume_bind hty fun src hsrc =>
        keeps_emit (hmove hindex src hsrc) (by simp +contextual)) hindex
  · rename_i heq
    have htmp : e.tmp? = none := by rw [not_not.mp heq]; rfl
    exact keeps_return.of_imp fun s hs => hs.drop htmp

/-- An increment spills the entries of the variable and adds to it in place. -/
theorem maintains_lowerIncrement {delta : Int8} (hspill : ∀ e : Emitted, e.Spill site → P e)
    (hadd : index < site.maxLocals.toNat → P (.inst (addTo index delta))) :
    Maintains site pc P (lowerIncrement site pc index delta) :=
  keeps_checkLocal_bind fun hindex => Keeps.withLocal
    ((keeps_saveLocal hspill hindex).bind fun _ => keeps_emit (hadd hindex) (by simp)) hindex

/-- The compare of a branch is emitted, unless its flags are there. -/
theorem maintains_lowerComparison {comparison : Comparison}
    (hP : ∀ (ty : Comparand) (a b : Operand), Stands site ty.valueType a →
      Stands site ty.valueType b → P (.inst { kind := .compare ty, args := [a, b] })) :
    Maintains site pc P (lowerComparison site pc comparison) := by
  cases comparison with
  | ints =>
      exact keeps_popTyped_bind fun b hb => keeps_popTyped_bind fun a ha =>
        keeps_emit (hP .int a b ha hb) (by simp)
  | refs =>
      exact keeps_popTyped_bind fun b hb => keeps_popTyped_bind fun a ha =>
        keeps_emit (hP .ref a b ha hb) (by simp)
  | null =>
      exact keeps_popTyped_bind fun a ha =>
        keeps_emit (hP .ref a (.int 0) ha ⟨.literal .null, rfl, rfl⟩) (by simp)
  | zero =>
      refine keeps_pop.bind fun e => ?_
      split
      · rename_i hflags
        have hcheck : ∀ b : Bool, Keeps site pc P 0 [e] []
            (if b then throw (.flagsClobbered pc) else pure () : Lower Unit) 0 (fun _ => [])
            (fun _ => []) := by
          intro b
          cases b with
          | true => exact keeps_throw rfl
          | false => exact keeps_return.of_imp fun s hs => hs.drop (by rw [hflags]; rfl)
        exact ⟨fun s => (hcheck _).yields s, fun s => (hcheck _).fails s⟩
      · exact keeps_checkType_bind fun hty => keeps_consume_bind hty fun a ha =>
          keeps_emit (hP .int a (.int 0) ha ⟨.literal (.int 0), rfl, rfl⟩) (by simp)

/-- A constant of the pool is pushed. -/
theorem maintains_lowerConstant {index : UInt16} {wide : Bool} :
    Maintains site pc P (lowerConstant site pc index wide) := by
  unfold lowerConstant
  split
  · exact keeps_pushEntry rfl trivial
  · exact keeps_pushEntry rfl trivial
  · exact keeps_pushEntry rfl trivial
  · exact keeps_pushEntry rfl trivial
  · exact keeps_throw rfl

/-- An operation has no slots in front of its operands. -/
theorem slot_notMem_front {instr : Instr} {kind : Kind} {front : List Operand} {op : Operation}
    (h : performs? site instr = some (kind, front, op)) (index : Nat) : .slot index ∉ front := by
  rcases front_of_performs h with ⟨rfl, -⟩ | ⟨_, _, -, rfl⟩ <;> simp

/-- **Lowering an instruction** keeps the stack in order, emits what belongs to the instruction, and
fails only with errors about it. -/
theorem maintains_lowerInstr {l : Located} :
    Maintains site l.pc (Emitted.From site l) (lowerInstr site l) := by
  have hspill : ∀ e : Emitted, e.Spill site → e.From site l := fun e he => .issued (.spill he)
  by_cases hoperation : isOperation l.instr = true
  · rcases lowerInstr_of_isOperation site hoperation with
      ⟨kind, front, op, hperforms, hlower⟩ | ⟨error, herror, hlower⟩
    · rw [hlower]
      exact (maintains_lowerOperation (slot_notMem_front hperforms) fun args index hargs hwords =>
        .issued (.operation index hperforms hargs hwords)).bind fun _ => keeps_return
    · rw [hlower]
      exact keeps_throw herror
  unfold lowerInstr
  cases hinstr : l.instr with
  | binary | negate | floatBinary | floatNegate | convert | invokeStatic | newArray | arrayLength
  | arrayLoad | arrayStore => exact absurd (by rw [hinstr]; rfl) hoperation
  | nop => exact keeps_return
  | push value => exact Keeps.bind (keeps_pushEntry rfl trivial) fun _ => keeps_return
  | pushConstant index wide => exact maintains_lowerConstant.bind fun _ => keeps_return
  | load ty index =>
      exact keeps_checkLocal_bind fun hindex =>
        Keeps.bind (keeps_pushEntry rfl hindex) fun _ => keeps_return
  | store ty index =>
      exact (maintains_lowerStore hspill fun hindex src hsrc =>
        .issued (.store hinstr hindex hsrc)).bind fun _ => keeps_return
  | increment index delta =>
      exact (maintains_lowerIncrement hspill fun hindex =>
        .issued (.increment hinstr hindex)).bind fun _ => keeps_return
  | pop => exact keeps_popWord.bind fun _ => keeps_releaseEntry.bind fun _ => keeps_return
  | pop2 =>
      refine keeps_pop.bind fun e => keeps_typeOf.discard.bind fun _ =>
        keeps_releaseEntry.bind fun _ => ?_
      split
      · exact keeps_popWord.bind fun _ => keeps_releaseEntry.bind fun _ => keeps_return
      · exact keeps_return
  | dup =>
      exact keeps_popWord.bind fun e => Keeps.close <|
        (keeps_duplicate hspill List.mem_cons_self).bind fun copy =>
        Keeps.bind (keeps_pushMiddle [copy] []) fun _ => keeps_push.bind fun _ => keeps_return
  | dupX1 =>
      exact keeps_popWord.bind fun e₁ => keeps_popWord.bind fun e₂ => Keeps.close <|
        (keeps_duplicate hspill (by simp)).bind fun _ => keeps_push.bind fun _ =>
        keeps_push.bind fun _ => keeps_push.bind fun _ => keeps_return
  | dup2 =>
      refine keeps_pop.bind fun e₁ => ?_
      split
      · exact Keeps.close <| (keeps_duplicate hspill List.mem_cons_self).bind fun copy =>
          Keeps.bind (keeps_pushMiddle [copy] []) fun _ => keeps_push.bind fun _ => keeps_return
      · exact keeps_typeOf.discard.bind fun _ => keeps_popWord.bind fun e₂ => Keeps.close <|
          (keeps_duplicate hspill (by simp)).bind fun copy₂ =>
          (keeps_duplicate hspill (by simp)).bind fun copy₁ =>
          Keeps.bind (keeps_pushMiddle [copy₁, copy₂] [e₁]) fun _ =>
          Keeps.bind (keeps_pushMiddle [copy₁, copy₂] []) fun _ =>
          Keeps.bind (keeps_pushMiddle [copy₁] []) fun _ => keeps_push.bind fun _ => keeps_return
  | swap =>
      exact keeps_popWord.bind fun e₁ => keeps_popWord.bind fun e₂ =>
        Keeps.bind (keeps_pushMiddle [e₂] []) fun _ => keeps_push.bind fun _ => keeps_return
  | compareLong =>
      exact keeps_popTyped_bind fun b hb => keeps_popTyped_bind fun a ha =>
        (keeps_emit (.issued (.compare (.inl hinstr) ha hb)) (by simp)).bind fun _ =>
        Keeps.bind (keeps_pushEntry rfl trivial) fun _ => keeps_return
  | branch comparison condition displacement =>
      have hbranches : l.instr.displacement? ≠ none := by simp [hinstr, Instr.displacement?]
      refine (maintains_lowerComparison fun ty a b ha hb => ?_).bind fun _ =>
        (keeps_emitBranch (fun e => .shift hbranches) (.branch ⟨_, _, ?_, rfl⟩)).bind fun _ =>
        keeps_return
      · exact .issued (.compare (.inr ⟨_, _, _, hinstr⟩) ha hb)
      · rw [Located.target?, hinstr]
        rfl
  | jump displacement =>
      have hbranches : l.instr.displacement? ≠ none := by simp [hinstr, Instr.displacement?]
      refine (keeps_emitBranch (fun e => .shift hbranches) (.branch ⟨_, _, ?_, rfl⟩)).bind fun _ =>
        keeps_return
      rw [Located.target?, hinstr]
      rfl
  | ret ty =>
      exact (keeps_optional fun _ => keeps_popTyped).bind_of (fun _ _ _ => stands_of_popOptional)
        fun arg harg => (keeps_emit (.issued (.ret hinstr harg)) (by simp)).bind fun _ =>
        keeps_return
  | unsupported => exact keeps_throw rfl

/-! ### All positions -/

/-- Giving temporaries back makes none. -/
theorem tmpCount_releaseAll {es : List Entry} {stack' : OperandStack}
    (h : es.foldlM OperandStack.releaseEntry stack = some stack') :
    stack'.tmpCount = stack.tmpCount := by
  induction es generalizing stack with
  | nil =>
      cases h
      rfl
  | cons e es ih =>
      obtain ⟨stack₁, hfirst, hrest⟩ := Option.bind_eq_some_iff.mp h
      rw [ih hrest, (releaseEntry_frame hfirst).2.2]

/-- Held entries can give their temporaries back, one after the other. -/
theorem Tidy.exists_releaseAll {es : List Entry} (h : Tidy site stack (es ++ held)) :
    ∃ stack', es.foldlM OperandStack.releaseEntry stack = some stack' := by
  induction es generalizing stack with
  | nil => exact ⟨stack, rfl⟩
  | cons e es ih =>
      obtain ⟨stack₁, hfirst⟩ := Tidy.exists_release h
      obtain ⟨stack', hrest⟩ := ih (Tidy.release h hfirst)
      exact ⟨stack', by rw [List.foldlM_cons, hfirst]; exact hrest⟩

/-- Falling into a position flushes the stack if branches go there. -/
theorem maintains_enter : Maintains site pc (Emitted.Shift site) (enter site pc) := by
  unfold enter
  split
  · exact keeps_flush_record fun _ => id
  · exact keeps_return

/-- Going on with the next instruction makes no temporary. -/
theorem Resumes.tmpCount {next : Nat} {flow : Flow} (h : Resumes s next t flow) :
    t.stack.tmpCount = s.stack.tmpCount := by
  cases flow with
  | next => rw [show t = s from h]
  | transfer =>
      obtain ⟨stack, hreset, rfl⟩ := h
      obtain ⟨released, hrelease, rfl⟩ := resetTo_eq hreset
      have hcount := tmpCount_releaseAll hrelease
      exact hcount

/-- Going on with the next instruction, which emits nothing and never fails. -/
theorem maintains_resume {next : Nat} {flow : Flow} :
    Maintains site pc (fun _ => False) (resume next flow) := by
  refine ⟨fun s a t hs h => ?_, fun s error hs h => ?_⟩
  · have hresumes := yields_resume.mp h
    obtain ⟨ht, hcode, hpositions, -⟩ := Holds.resume hs.holds hresumes
    have hlength : t.stack.entries.length ≤ site.maxStack.toNat :=
      Nat.le_trans (length_le_words _) (ht.words ▸ ht.depth)
    have hroom := hs.room
    exact ⟨⟨ht, (hs.frugal.congr hresumes.tmpCount hcode).recount (by omega), hlength⟩,
      .of_eq hcode hpositions⟩
  · cases flow with
    | next => simp [resume] at h
    | transfer =>
        have hall : Tidy site s.stack (s.stack.entries.reverse ++ []) := by
          rw [List.append_nil]
          exact hs.holds.tidy.perm (List.reverse_perm _).symm
        obtain ⟨released, hrelease⟩ := Tidy.exists_releaseAll hall
        simp only [resume, if_true, fails_get_bind, OperandStack.resetTo, hrelease] at h
        exact absurd h fails_set

/-- Noting where the code of a position starts changes nothing else. -/
theorem Sound.placed (h : Sound site extra above hand s) (pc : Nat) :
    Sound site extra above hand (s.placed pc) :=
  ⟨h.holds.congr rfl rfl, h.frugal.congr rfl rfl, h.room⟩

/-- Lowering the instruction at a position. -/
theorem sound_lowerAt {l : Located} {a : Unit} (hs : Orderly site s)
    (h : Yields (lowerAt site l) s a t) : Orderly site t := by
  rw [lowerAt_eq] at h
  simp only [yields_bind, yields_modify] at h
  obtain ⟨_, u, henter, _, _, rfl, flow, v, hlower, hresume⟩ := h
  have hu := maintains_enter.sound hs henter
  have hv := maintains_lowerInstr.sound (hu.placed l.pc) hlower
  have hresumes : Maintains site l.pc (fun _ => False) (resume l.next flow) := maintains_resume
  exact hresumes.sound hv hresume

/-- An error is about the instruction that is lowered. -/
theorem position_of_lowerAt {l : Located} {error : Error} (hs : Orderly site s)
    (h : Fails (lowerAt site l) s error) : error.position? = some l.pc := by
  rw [lowerAt_eq] at h
  simp only [fails_bind, fails_modify, yields_modify, false_or] at h
  rcases h with h | ⟨_, u, henter, _, _, rfl, h⟩
  · exact maintains_enter.fails s error hs h
  have hu := maintains_enter.sound hs henter
  rcases h with h | ⟨flow, v, hlower, h⟩
  · exact maintains_lowerInstr.fails _ error (hu.placed l.pc) h
  · have hv := maintains_lowerInstr.sound (hu.placed l.pc) hlower
    exact maintains_resume.fails v error hv h

/-- All that lowering an instruction emits, with the moves into its position. -/
theorem adds_lowerAt {l : Located} {a : Unit} (hs : Orderly site s)
    (hshift : ∀ e : Emitted, e.Shift site → P e) (hfrom : ∀ e : Emitted, e.From site l → P e)
    (h : Yields (lowerAt site l) s a t) : Adds P s t := by
  obtain ⟨u, v, flow, henter, hlower, hresume⟩ := yields_lowerAt.mp h
  obtain ⟨hu, hentered⟩ := maintains_enter.yields s () u hs henter
  obtain ⟨hv, hlowered⟩ := maintains_lowerInstr.yields _ flow v (hu.placed l.pc) hlower
  have hplaced : Adds P s (u.placed l.pc) := (hentered.mono hshift).adds.trans (.of_code_eq rfl)
  exact (hplaced.trans (hlowered.mono hfrom).adds).trans (.of_code_eq (hv.holds.resume hresume).2.1)

/-- Lowering instructions one after the other. -/
theorem sound_forM {instrs : List Located} {a : Unit} (hs : Orderly site s)
    (h : Yields (instrs.forM (lowerAt site)) s a t) : Orderly site t := by
  induction instrs generalizing s with
  | nil =>
      obtain ⟨-, rfl⟩ := yields_pure.mp h
      exact hs
  | cons l rest ih =>
      obtain ⟨u, hfirst, hrest⟩ := yields_forM_cons.mp h
      exact ih (sound_lowerAt hs hfirst) hrest

/-- All that lowering instructions emits. -/
theorem adds_forM {instrs : List Located} {a : Unit} (hs : Orderly site s)
    (hshift : ∀ e : Emitted, e.Shift site → P e)
    (hfrom : ∀ l ∈ instrs, ∀ e : Emitted, e.From site l → P e)
    (h : Yields (instrs.forM (lowerAt site)) s a t) : Adds P s t := by
  induction instrs generalizing s with
  | nil =>
      obtain ⟨-, rfl⟩ := yields_pure.mp h
      exact .of_code_eq rfl
  | cons l rest ih =>
      obtain ⟨u, hfirst, hrest⟩ := yields_forM_cons.mp h
      exact (adds_lowerAt hs hshift (hfrom l List.mem_cons_self) hfirst).trans
        (ih (sound_lowerAt hs hfirst) (fun l hl => hfrom l (List.mem_cons_of_mem _ hl)) hrest)

/-- An error of lowering is about one of the instructions. -/
theorem exists_position {instrs : List Located} {error : Error} (hs : Orderly site s)
    (h : Fails (instrs.forM (lowerAt site)) s error) :
    ∃ l ∈ instrs, error.position? = some l.pc := by
  induction instrs generalizing s with
  | nil => exact absurd h fails_pure
  | cons first rest ih =>
      change Fails (lowerAt site first >>= fun _ => rest.forM (lowerAt site)) s error at h
      rcases fails_bind.mp h with h | ⟨_, t, hfirst, h⟩
      · exact ⟨first, List.mem_cons_self, position_of_lowerAt hs h⟩
      · obtain ⟨l, hl, herror⟩ := ih (sound_lowerAt hs hfirst) h
        exact ⟨l, List.mem_cons_of_mem first hl, herror⟩

/-! ### Bodies -/

/-- Resolving a branch names no slot. -/
theorem inFrame_of_resolve {positions : Std.HashMap Nat Nat} {emitted : Emitted} {inst : Inst}
    {count : Nat} (h : resolve positions emitted = .ok inst) (hin : emitted.InFrame count) :
    Semantics.InFrame count inst := by
  cases emitted with
  | inst i =>
      cases h
      exact hin
  | branch condition pc target =>
      simp only [resolve] at h
      split at h
      · cases h
      · split at h <;> cases h <;> exact ⟨by simp, by simp⟩

/-- Lowering starts in a state that is sound. -/
theorem sound_empty (site : Site) : Orderly site {} :=
  ⟨holds_empty site, ⟨Nat.zero_le _, fun _ he => (nomatch he), fun _ hindex => (nomatch hindex)⟩,
    Nat.zero_le _⟩

variable {context : Context} {owner : ClassTable} {method : Method} {body : Body}

/-- Lowering a method ends in order. -/
theorem Lowered.sound {stream : Stream} {fin : State}
    (h : Lowered context owner method stream fin body) :
    Orderly (.of context owner method stream) fin :=
  sound_forM (sound_empty _) h.run

/-- Lowered code stays in its frame. -/
theorem inFrame_of_lower (h : lower context owner method = .ok body) :
    ∀ inst ∈ body.code, Semantics.InFrame body.frameSlots inst := by
  obtain ⟨stream, fin, hlowered⟩ := exists_lowered h
  intro inst hinst
  obtain ⟨e, he, inst', marks, hresolve, rfl⟩ := hlowered.resolved.exists_of_mem hinst
  have hin := inFrame_of_resolve hresolve (hlowered.sound.frugal.code e he)
  rw [hlowered.frameSlots]
  exact ⟨hin.dst, hin.args⟩

/-- The frame has the slots of the local variables, the merge slots, and no more temporaries than
merge slots. -/
theorem frameSlots_of_lower (h : lower context owner method = .ok body) :
    method.maxLocals.toNat + method.maxStack.toNat ≤ body.frameSlots ∧
      body.frameSlots ≤ method.maxLocals.toNat + 2 * method.maxStack.toNat := by
  obtain ⟨stream, fin, hlowered⟩ := exists_lowered h
  have hfew := hlowered.sound.frugal.few
  have hlength := hlowered.sound.length_le
  rw [List.nil_append] at hfew
  simp only [Site.of] at hfew hlength
  simp only [hlowered.frameSlots, Site.tmpIndex, Site.of]
  omega

/-- A frame has few slots. -/
theorem frameSlots_lt_of_lower (h : lower context owner method = .ok body) :
    body.frameSlots < 2 ^ 18 := by
  have hslots := (frameSlots_of_lower h).2
  have hlocals := method.maxLocals.toNat_lt
  have hstack := method.maxStack.toNat_lt
  omega

end SlotJit.Lowering

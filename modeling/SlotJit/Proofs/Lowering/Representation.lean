import SlotJit.Proofs.Lowering.Steps
import SlotJit.Proofs.Semantics.SlotMachine

/-!
# What the symbolic stack stands for

The entries of the symbolic stack stand for values. A literal stands for itself and the flags for
the result of some compare; every other entry is a slot of the frame, read at the entry's type
(`Entry.Denotes`). For this to survive stores, no two things may share a slot: a temporary is free
or held by one entry (`Tidy`), and local variables, merge slots and temporaries lie apart.

`Represents` puts this together for a lowering state and a state of the slot machine. Entries are
given apart from the state, since in the middle of an instruction some of them are not on the stack.
The last clause is about a pending long compare: as long as nothing but moves was emitted after it,
the topmost flags entry is what the machine's flags say.

`Rewrites` is a step of lowering that replaces entries and emits moves, such that the new entries
stand for the same values after the moves as the old ones did before.
-/

namespace SlotJit.Lowering

open SlotJit.Ir SlotJit.Semantics SlotJit.Tables

/-! ### Emitted code -/

/-- Execute an emitted instruction; the target of a branch is a position. -/
def Emitted.execute (context : Context) (env : Environment) (core : Core) : Emitted → Exit Nat
  | .inst i => core.execute context env i
  | .branch condition _ target => core.branch condition target

/-- Execute emitted instructions one after the other, up to the first that does not fall through. -/
def executeAll (context : Context) (env : Environment) : Core → List Emitted → Exit Nat
  | core, [] => .fall core
  | core, e :: rest =>
    match e.execute context env core with
    | .fall core => executeAll context env core rest
    | .goto target core => .goto target core
    | .halt outcome core => .halt outcome core
    | .stuck => .stuck

section Execution

variable {context : Context} {env : Environment} {core core' : Core}

theorem executeAll_append {first : List Emitted}
    (h : executeAll context env core first = .fall core') (second : List Emitted) :
    executeAll context env core (first ++ second) = executeAll context env core' second := by
  induction first generalizing core with
  | nil =>
      rw [executeAll, Exit.fall.injEq] at h
      rw [h, List.nil_append]
  | cons e rest ih =>
      rw [List.cons_append, executeAll]
      rw [executeAll] at h
      cases hexec : e.execute context env core with
      | fall core₁ =>
          rw [hexec] at h
          exact ih h
      | goto target core₁ =>
          rw [hexec] at h
          cases h
      | halt outcome core₁ =>
          rw [hexec] at h
          cases h
      | stuck =>
          rw [hexec] at h
          cases h

/-- The last instruction decides what some code leads to. -/
theorem executeAll_singleton (e : Emitted) :
    executeAll context env core [e] = e.execute context env core := by
  rw [executeAll]
  cases e.execute context env core <;> rfl

/-- A move stores what its operand reads, and keeps all else. -/
theorem execute_move {ty : ValueType} {index : Nat} {src : Operand} {v : Value} {marks : Marks}
    (hread : readOperand core.frame src ty = some v) :
    Emitted.execute context env core
        (.inst { kind := .move ty, dst := some (.slot index), args := [src], marks }) =
      .fall { core with frame := core.frame.set index v } := by
  simp only [Emitted.execute, Core.execute, hread, Core.deliver]

end Execution

/-! ### Slots of entries -/

namespace Entry

/-- The temporary that an entry holds. -/
def tmp? : Entry → Option Nat
  | tmp index _ => some index
  | _ => none

/-- The slot that an entry reads. -/
def slot? (site : Site) : Entry → Option Nat
  | localVar index _ => some index
  | merge depth _ => some (site.maxLocals.toNat + depth)
  | tmp index _ => some (site.tmpIndex index)
  | literal _ | flags => none

/-- Whether the slot of an entry is among those that are kept for its kind. -/
def Fits (site : Site) : Entry → Prop
  | localVar index _ => index < site.maxLocals.toNat
  | merge depth _ => depth < site.maxStack.toNat
  | _ => True

/-- What value an entry stands for in a frame. -/
def Denotes (site : Site) (frame : Frame) (e : Entry) (v : Value) : Prop :=
  match e with
  | literal l => v = l.value
  | localVar index ty => v = frame.get ty index
  | merge depth ty => v = frame.get ty (site.maxLocals.toNat + depth)
  | tmp index ty => v = frame.get ty (site.tmpIndex index)
  | flags => ∃ order, v = orderValue order

variable {site : Site} {frame : Frame} {e : Entry} {v : Value} {ty : ValueType}

/-- The type of an entry is the type of its value. -/
theorem Denotes.type (h : e.Denotes site frame v) (hty : e.valueType? = some ty) : v.type = ty := by
  cases e with
  | flags => cases hty
  | literal l =>
      cases hty
      rw [show v = _ from h, Literal.type_value]
  | localVar | merge | tmp =>
      cases hty
      rw [show v = _ from h, Frame.type_get]

/-- The operand for an entry reads its value. -/
theorem Denotes.readOperand (h : e.Denotes site frame v) (hty : e.valueType? = some ty)
    {a : Operand} (ha : e.operand? site = some a) : readOperand frame a ty = some v := by
  cases e with
  | flags => cases hty
  | literal l =>
      cases hty
      cases l <;> cases ha <;>
        simp [show v = _ from h, Semantics.readOperand, Literal.value, Literal.valueType]
  | localVar | merge | tmp =>
      cases hty
      cases ha
      rw [show v = _ from h]
      rfl

/-- A store elsewhere does not change what an entry stands for. -/
theorem Denotes.set (h : e.Denotes site frame v) {index : Nat} (hne : e.slot? site ≠ some index)
    (w : Value) : e.Denotes site (frame.set index w) v := by
  cases e with
  | literal => exact h
  | flags => exact h
  | localVar | merge | tmp =>
      rw [Denotes, Frame.get_set_of_ne frame _ w (fun heq => hne (congrArg some heq))]
      exact h

end Entry

/-! ### Temporaries -/

/-- Taking a temporary leaves the entries alone. -/
theorem alloc_frame (stack : OperandStack) :
    stack.alloc.2.entries = stack.entries ∧ stack.alloc.2.words = stack.words := by
  unfold OperandStack.alloc
  split <;> exact ⟨rfl, rfl⟩

/-- Giving a temporary back leaves the entries alone and makes no temporary. -/
theorem releaseEntry_frame {stack stack' : OperandStack} {e : Entry}
    (h : stack.releaseEntry e = some stack') :
    stack'.entries = stack.entries ∧ stack'.words = stack.words ∧
      stack'.tmpCount = stack.tmpCount := by
  cases e with
  | tmp index ty =>
      simp only [OperandStack.releaseEntry, OperandStack.release] at h
      split at h
      · cases h
      · cases h
        exact ⟨rfl, rfl, rfl⟩
  | literal | localVar | merge | flags =>
      cases h
      exact ⟨rfl, rfl, rfl⟩

/-- The temporaries that entries hold. -/
def heldTmps (held : List Entry) : List Nat := held.filterMap Entry.tmp?

/-- Every temporary is free or held by one of the entries, and the entries fit. -/
structure Tidy (site : Site) (stack : OperandStack) (held : List Entry) : Prop where
  owned : (stack.free ++ heldTmps held).Perm (List.range stack.tmpCount)
  fits : ∀ e ∈ held, e.Fits site

namespace Tidy

variable {site : Site} {stack stack' : OperandStack} {held held' : List Entry} {e : Entry}

theorem perm (h : Tidy site stack held) (hperm : held.Perm held') : Tidy site stack held' :=
  ⟨((hperm.filterMap Entry.tmp?).append_left _).symm.trans h.owned,
    fun e he => h.fits e (hperm.mem_iff.mpr he)⟩

/-- Temporaries and entries are all that matters of the stack. -/
theorem congr (h : Tidy site stack held) (hfree : stack'.free = stack.free)
    (hcount : stack'.tmpCount = stack.tmpCount) : Tidy site stack' held :=
  ⟨by rw [hfree, hcount]; exact h.owned, h.fits⟩

/-- An entry without a temporary can be left out. -/
theorem drop (h : Tidy site stack (e :: held)) (htmp : e.tmp? = none) : Tidy site stack held := by
  refine ⟨?_, fun e' he' => h.fits e' (List.mem_cons_of_mem _ he')⟩
  have howned := h.owned
  rwa [heldTmps, List.filterMap_cons_none htmp] at howned

/-- An entry without a temporary can be added. -/
theorem add (h : Tidy site stack held) (htmp : e.tmp? = none) (hfits : e.Fits site) :
    Tidy site stack (e :: held) := by
  refine ⟨?_, fun e' he' => (List.mem_cons.mp he').elim (fun heq => heq ▸ hfits) (h.fits e')⟩
  rw [heldTmps, List.filterMap_cons_none htmp]
  exact h.owned

/-- A new temporary is held by no entry. -/
theorem alloc (h : Tidy site stack held) (ty : ValueType) :
    Tidy site stack.alloc.2 (.tmp stack.alloc.1 ty :: held) ∧ stack.alloc.1 ∉ heldTmps held := by
  have howned := h.owned
  have hfits : ∀ index, ∀ e ∈ Entry.tmp index ty :: held, e.Fits site := fun index e he =>
    (List.mem_cons.mp he).elim (fun heq => heq ▸ trivial) (h.fits e)
  cases hfree : stack.free with
  | nil =>
      have halloc :
          stack.alloc = (stack.tmpCount, { stack with tmpCount := stack.tmpCount + 1 }) := by
        rw [OperandStack.alloc, hfree]
      rw [halloc]
      rw [hfree, List.nil_append] at howned
      refine ⟨⟨?_, hfits _⟩, fun hmem => absurd (howned.mem_iff.mp hmem) (by simp)⟩
      simp only [hfree, List.nil_append, heldTmps, List.filterMap_cons, Entry.tmp?]
      rw [List.range_succ]
      exact (howned.cons _).trans (List.perm_append_singleton _ _).symm
  | cons index free =>
      have halloc : stack.alloc = (index, { stack with free }) := by
        rw [OperandStack.alloc, hfree]
      rw [halloc]
      rw [hfree] at howned
      have hnodup : (index :: (free ++ heldTmps held)).Nodup :=
        howned.nodup_iff.mpr List.nodup_range
      refine ⟨⟨?_, hfits _⟩, fun hmem => ?_⟩
      · simp only [heldTmps, List.filterMap_cons, Entry.tmp?]
        exact List.perm_middle.trans howned
      · exact (List.nodup_cons.mp hnodup).1 (List.mem_append_right _ hmem)

/-- An entry that is given up gives back its temporary. -/
theorem release (h : Tidy site stack (e :: held)) (hrelease : stack.releaseEntry e = some stack') :
    Tidy site stack' held := by
  cases e with
  | tmp index ty =>
      simp only [OperandStack.releaseEntry, OperandStack.release] at hrelease
      split at hrelease
      · cases hrelease
      · cases hrelease
        refine ⟨?_, fun e' he' => h.fits e' (List.mem_cons_of_mem _ he')⟩
        exact List.perm_middle.symm.trans h.owned
  | literal | localVar | merge | flags =>
      cases hrelease
      exact h.drop rfl

/-- The slot of a temporary that no entry holds is read by no entry. -/
theorem slot?_ne (h : Tidy site stack held) (he : e ∈ held) {index : Nat}
    (hindex : index ∉ heldTmps held) : e.slot? site ≠ some (site.tmpIndex index) := by
  intro hslot
  have hfits := h.fits e he
  cases e with
  | literal | flags => cases hslot
  | localVar i ty =>
      simp only [Entry.slot?, Site.tmpIndex, Option.some.injEq, Entry.Fits] at hslot hfits
      omega
  | merge depth ty =>
      simp only [Entry.slot?, Site.tmpIndex, Option.some.injEq, Entry.Fits] at hslot hfits
      omega
  | tmp i ty =>
      simp only [Entry.slot?, Site.tmpIndex, Option.some.injEq] at hslot
      have hi : i = index := by omega
      exact hindex (List.mem_filterMap.mpr ⟨_, he, by rw [Entry.tmp?, hi]⟩)

end Tidy

/-! ### Pending compares -/

/-- The value of the topmost entry that has no type: a flags entry. -/
def topFlags : List (Option ValueType) → List Value → Option Value
  | none :: _, v :: _ => some v
  | some _ :: types, _ :: values => topFlags types values
  | _, _ => none

/-- Among entries that all have types there are no flags. -/
theorem topFlags_of_typed (types : List ValueType) (values : List Value) :
    topFlags (types.map some) values = none := by
  induction types generalizing values with
  | nil => rfl
  | cons ty types ih =>
      cases values with
      | nil => rfl
      | cons v values => exact ih values

/-- Whether a pending compare survives depends on nothing but the code. -/
theorem flagsIntact_congr {s t : State} (h : t.code = s.code) : t.flagsIntact = s.flagsIntact := by
  rw [State.flagsIntact, State.flagsIntact, h]

/-- The last instruction but moves decides whether the flags of a compare are there. -/
theorem flagsIntact_of_push {s t : State} {e : Emitted} (h : t.code = s.code.push e) :
    t.flagsIntact = if e.kind.isMove then s.flagsIntact
      else match e.kind with | .compare _ => true | _ => false := by
  rw [State.flagsIntact, State.flagsIntact, h, Array.findRev?_eq_find?_reverse,
    Array.findRev?_eq_find?_reverse, Array.reverse_push, Array.find?_append]
  cases hmove : e.kind.isMove with
  | true => simp [hmove]
  | false =>
      rw [Array.find?_singleton, hmove, Bool.not_false, if_pos rfl, Option.some_or]
      rfl

/-! ### Entries, values and slots -/

variable {site : Site} {s t : State} {held pre post : List Entry} {e : Entry} {values : List Value}
  {v : Value} {locals frame : Frame} {core core' : Core} {ty : ValueType} {types : List ValueType}
  {a : Operand} {index : Nat}

/-- The entries stand for the values, the local variables are in their slots, and the topmost flags
entry is what the machine's flags say. -/
structure Represents (site : Site) (s : State) (held : List Entry) (values : List Value)
    (locals : Frame) (core : Core) : Prop where
  denotes : List.Forall₂ (Entry.Denotes site core.frame) held values
  frame : ∀ i < site.maxLocals.toNat, core.frame i = locals i
  pending : s.flagsIntact = true → ∀ v, topFlags (held.map Entry.valueType?) values = some v →
    ∃ order, core.flags = some order ∧ v = orderValue order

/-- What entries stand for does not depend on lowering but for its code. -/
theorem Represents.congr (h : Represents site s held values locals core) (hcode : t.code = s.code) :
    Represents site t held values locals core :=
  ⟨h.denotes, h.frame, by rw [flagsIntact_congr hcode]; exact h.pending⟩

/-- An entry with a type on top of others. -/
theorem represents_cons (hty : e.valueType? = some ty) :
    Represents site s (e :: held) values locals core ↔ ∃ v rest, values = v :: rest ∧
      e.Denotes site core.frame v ∧ Represents site s held rest locals core := by
  constructor
  · intro h
    obtain ⟨v, rest, hv, hrest, rfl⟩ := List.forall₂_cons_left_iff.mp h.denotes
    have hpending := h.pending
    rw [List.map_cons, hty] at hpending
    exact ⟨v, rest, rfl, hv, hrest, h.frame, hpending⟩
  · rintro ⟨v, rest, rfl, hv, h⟩
    refine ⟨.cons hv h.denotes, h.frame, ?_⟩
    rw [List.map_cons, hty]
    exact h.pending

/-- Pushing an entry with a type. -/
theorem Represents.push (h : Represents site s held values locals core)
    (hty : e.valueType? = some ty)
    (hv : e.Denotes site core.frame v) : Represents site s (e :: held) (v :: values) locals core :=
  (represents_cons hty).mpr ⟨v, values, rfl, hv, h⟩

/-- Entries with types on top of others. -/
theorem represents_append {front : List Entry}
    (htypes : front.map Entry.valueType? = types.map some) :
    Represents site s (front ++ held) values locals core ↔ ∃ first rest, values = first ++ rest ∧
      List.Forall₂ (Entry.Denotes site core.frame) front first ∧
        Represents site s held rest locals core := by
  induction front generalizing types values with
  | nil => simp
  | cons e front ih =>
      obtain ⟨ty, types, rfl, hty, htypes⟩ := List.map_eq_cons_iff.mp htypes.symm
      rw [List.cons_append, represents_cons hty.symm]
      simp only [ih htypes.symm, List.forall₂_cons_left_iff]
      constructor
      · rintro ⟨v, _, rfl, hv, first, rest, rfl, hfirst, h⟩
        exact ⟨v :: first, rest, rfl, ⟨v, first, hv, hfirst, rfl⟩, h⟩
      · rintro ⟨_, rest, rfl, ⟨v, first, hv, hfirst, rfl⟩, h⟩
        exact ⟨v, first ++ rest, rfl, hv, first, rest, rfl, hfirst, h⟩

/-- The values of entries have their types. -/
theorem types_of_denotes (h : List.Forall₂ (Entry.Denotes site frame) held values)
    (htypes : held.map Entry.valueType? = types.map some) : values.map Value.type = types := by
  induction h generalizing types with
  | nil => exact (List.map_eq_nil_iff.mp htypes.symm).symm
  | cons hv _ ih =>
      obtain ⟨ty, types, rfl, hty, htypes⟩ := List.map_eq_cons_iff.mp htypes.symm
      rw [List.map_cons, hv.type hty.symm, ih htypes.symm]

/-- Where all entries have types, no compare is pending, and nothing of the lowering state
matters. -/
theorem Represents.of_typed (h : Represents site s held values locals core)
    (htypes : held.map Entry.valueType? = types.map some) (hframe : core'.frame = core.frame) :
    Represents site t held values locals core' := by
  refine ⟨hframe ▸ h.denotes, hframe ▸ h.frame, fun _ v hv => ?_⟩
  rw [htypes, topFlags_of_typed] at hv
  cases hv

/-- A list related to two lists one after the other is two lists one after the other. -/
theorem exists_append_of_forall₂ {α β : Type} {R : α → β → Prop} {first second : List α}
    {bs : List β} (h : List.Forall₂ R (first ++ second) bs) :
    ∃ bs₁ bs₂, bs = bs₁ ++ bs₂ ∧ List.Forall₂ R first bs₁ ∧ List.Forall₂ R second bs₂ := by
  induction first generalizing bs with
  | nil => exact ⟨[], bs, rfl, .nil, h⟩
  | cons a first ih =>
      obtain ⟨b, rest, hab, hrest, rfl⟩ := List.forall₂_cons_left_iff.mp h
      obtain ⟨bs₁, bs₂, rfl, h₁, h₂⟩ := ih hrest
      exact ⟨b :: bs₁, bs₂, rfl, .cons hab h₁, h₂⟩

/-- The instruction that moves a value to a slot. -/
def moveTo (ty : ValueType) (index : Nat) (src : Operand) : Emitted :=
  .inst { kind := .move ty, dst := some (.slot index), args := [src] }

/-- An entry reads what was stored to its slot at its type. -/
theorem Entry.denotes_set (hslot : e.slot? site = some index) (hty : e.valueType? = some v.type) :
    e.Denotes site (frame.set index v) v := by
  cases e with
  | literal | flags => cases hslot
  | localVar | merge | tmp =>
      cases hslot
      cases hty
      exact (Frame.get_set_same frame _ v).symm

/-- A store to a slot that no entry reads does not change what they stand for. -/
theorem denotes_set_of_free (hfree : ∀ e ∈ held, e.slot? site ≠ some index)
    (h : List.Forall₂ (Entry.Denotes site frame) held values) (v : Value) :
    List.Forall₂ (Entry.Denotes site (frame.set index v)) held values := by
  induction h with
  | nil => exact .nil
  | cons hx _ ih =>
      exact .cons (hx.set (hfree _ List.mem_cons_self) v)
        (ih fun e he => hfree e (List.mem_cons_of_mem _ he))

/-- Moving what an entry stands for to a slot that no other entry and no local variable uses. -/
theorem Represents.move {e' : Entry} (h : Represents site s (pre ++ e :: post) values locals core)
    (hcode : t.code = s.code.push (moveTo ty index a)) (hty : e.valueType? = some ty)
    (ha : e.operand? site = some a) (hslot : e'.slot? site = some index)
    (hty' : e'.valueType? = some ty) (hlocals : site.maxLocals.toNat ≤ index)
    (hfree : ∀ x ∈ pre ++ post, x.slot? site ≠ some index)
    (env : Environment) :
    ∃ core', Emitted.execute site.context env core (moveTo ty index a) = .fall core' ∧
      core'.flags = core.flags ∧ core'.history = core.history ∧
        Represents site t (pre ++ e' :: post) values locals core' := by
  obtain ⟨before, rest, rfl, hpre, hrest⟩ := exists_append_of_forall₂ h.denotes
  obtain ⟨v, after, hv, hpost, rfl⟩ := List.forall₂_cons_left_iff.mp hrest
  refine ⟨_, execute_move (hv.readOperand hty ha), rfl, rfl, ?_, ?_, ?_⟩
  · refine List.rel_append
      (denotes_set_of_free (fun x hx => hfree x (List.mem_append_left _ hx)) hpre v) ?_
    refine .cons (Entry.denotes_set hslot ?_)
      (denotes_set_of_free (fun x hx => hfree x (List.mem_append_right _ hx)) hpost v)
    rw [hty', hv.type hty]
  · intro i hi
    exact (Frame.set_of_ne core.frame v (by omega)).trans (h.frame i hi)
  · rw [flagsIntact_of_push hcode, show (moveTo ty index a).kind.isMove = true from rfl, if_pos rfl]
    rw [List.map_append, List.map_cons, hty', ← hty, ← List.map_cons, ← List.map_append]
    exact h.pending

/-- A store to a slot that no entry reads. -/
theorem Represents.set (h : Represents site s held values locals core)
    (hfree : ∀ e ∈ held, e.slot? site ≠ some index) (v : Value) :
    Represents site s held values (locals.set index v)
      { core with frame := core.frame.set index v } := by
  refine ⟨denotes_set_of_free hfree h.denotes v, fun i hi => ?_, h.pending⟩
  simp only [Frame.set, h.frame i hi]

/-- Only the slots of local variables matter. -/
theorem Represents.locals_congr {locals' : Frame} (h : Represents site s held values locals core)
    (hlocals : ∀ i < site.maxLocals.toNat, locals' i = locals i) :
    Represents site s held values locals' core :=
  ⟨h.denotes, fun i hi => (h.frame i hi).trans (hlocals i hi).symm, h.pending⟩

/-- An instruction that loses the flags was emitted. -/
theorem Represents.clobber (h : Represents site s held values locals core)
    (hframe : core'.frame = core.frame) (hintact : t.flagsIntact = false) :
    Represents site t held values locals core' := by
  refine ⟨hframe ▸ h.denotes, hframe ▸ h.frame, fun htrue => ?_⟩
  rw [hintact] at htrue
  cases htrue

/-- A move was emitted. -/
theorem Represents.emit_move (h : Represents site s held values locals core)
    (hcode : t.code = s.code.push (moveTo ty index a)) :
    Represents site t held values locals core := by
  refine ⟨h.denotes, h.frame, ?_⟩
  rw [flagsIntact_of_push hcode, show (moveTo ty index a).kind.isMove = true from rfl, if_pos rfl]
  exact h.pending

/-! ### Replacing entries -/

/-- Lowering went from one state to another, replaced entries by others of the same types and
emitted moves that keep what the entries stand for. -/
structure Rewrites (site : Site) (s t : State) (held held' : List Entry) : Prop where
  positions : t.positions = s.positions
  entryTypes : t.entryTypes = s.entryTypes
  words : t.stack.words = s.stack.words
  types : held'.map Entry.valueType? = held.map Entry.valueType?
  tidy : Tidy site t.stack held'
  runs : ∃ moves, t.code.toList = s.code.toList ++ moves ∧
    ∀ env values locals core, Represents site s held values locals core →
      ∃ core', executeAll site.context env core moves = .fall core' ∧ core'.flags = core.flags ∧
        core'.history = core.history ∧ Represents site t held' values locals core'

namespace Rewrites

variable {u : State} {held' held'' : List Entry}

theorem refl (h : Tidy site s.stack held) : Rewrites site s s held held where
  positions := rfl
  entryTypes := rfl
  words := rfl
  types := rfl
  tidy := h
  runs := ⟨[], by simp, fun _ _ _ core hrep => ⟨core, rfl, rfl, rfl, hrep⟩⟩

theorem trans (h : Rewrites site s t held held')
    (h' : Tidy site t.stack held' → Rewrites site t u held' held'') :
    Rewrites site s u held held'' := by
  have h' := h' h.tidy
  obtain ⟨first, hfirst, hrun⟩ := h.runs
  obtain ⟨second, hsecond, hrun'⟩ := h'.runs
  refine ⟨h'.positions.trans h.positions, h'.entryTypes.trans h.entryTypes,
    h'.words.trans h.words, h'.types.trans h.types, h'.tidy, first ++ second,
    by rw [hsecond, hfirst, List.append_assoc], ?_⟩
  intro env values locals core hrep
  obtain ⟨core₁, hexec₁, hflags₁, hhistory₁, hrep₁⟩ := hrun env values locals core hrep
  obtain ⟨core₂, hexec₂, hflags₂, hhistory₂, hrep₂⟩ := hrun' env values locals core₁ hrep₁
  exact ⟨core₂, by rw [executeAll_append hexec₁, hexec₂], hflags₂.trans hflags₁,
    hhistory₂.trans hhistory₁, hrep₂⟩

end Rewrites

/-- Moving what an entry stands for to a new temporary. -/
theorem rewrites_spill (htidy : Tidy site s.stack (pre ++ post)) (hty : e.valueType? = some ty)
    (ha : e.operand? site = some a) :
    Rewrites site s
      { s with
        stack := s.stack.alloc.2,
        code := s.code.push (moveTo ty (site.tmpIndex s.stack.alloc.1) a) }
      (pre ++ e :: post) (pre ++ .tmp s.stack.alloc.1 ty :: post) := by
  obtain ⟨halloc, hfresh⟩ := htidy.alloc ty
  refine ⟨rfl, rfl, (alloc_frame s.stack).2, ?_, halloc.perm List.perm_middle.symm, _,
    Array.toList_push, ?_⟩
  · rw [List.map_append, List.map_append, List.map_cons, List.map_cons, hty]
    rfl
  · intro env values locals core hrep
    rw [executeAll_singleton]
    exact hrep.move rfl hty ha rfl rfl (by simp only [Site.tmpIndex]; omega)
      (fun x hx => htidy.slot?_ne hx hfresh) env

/-- Moving an entry to a merge slot that no other entry reads. -/
theorem rewrites_settle {depth : Nat} {stack : OperandStack}
    (htidy : Tidy site s.stack (pre ++ e :: post))
    (hty : e.valueType? = some ty) (ha : e.operand? site = some a)
    (hrelease : s.stack.releaseEntry e = some stack) (hdepth : depth < site.maxStack.toNat)
    (hfree : ∀ x ∈ pre ++ post, x.slot? site ≠ some (site.maxLocals.toNat + depth)) :
    Rewrites site s
      { s with stack, code := s.code.push (moveTo ty (site.maxLocals.toNat + depth) a) }
      (pre ++ e :: post) (pre ++ .merge depth ty :: post) := by
  have hreleased : Tidy site stack (pre ++ post) :=
    (htidy.perm List.perm_middle).release hrelease
  obtain ⟨-, hwords, -⟩ := releaseEntry_frame hrelease
  have htidy' : Tidy site stack (pre ++ .merge depth ty :: post) :=
    (hreleased.add (e := .merge depth ty) rfl hdepth).perm List.perm_middle.symm
  refine ⟨rfl, rfl, hwords, ?_, htidy', _, Array.toList_push, ?_⟩
  · rw [List.map_append, List.map_append, List.map_cons, List.map_cons, hty]
    rfl
  · intro env values locals core hrep
    rw [executeAll_singleton]
    exact hrep.move rfl hty ha rfl rfl (by omega) hfree env

end SlotJit.Lowering

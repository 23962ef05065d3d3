import SlotJit.Proofs.Lowering.Instructions

/-!
# What lowering emits

A step of lowering adds instructions at the end of the code and leaves the rest alone; only the step
from one instruction of the bytecode to the next notes a position. `Grows P s t` says so of two
states, and that what was added has the property `P`.

What may be added is said once. Entries are copied to temporaries (`Emitted.Spill`), and a flush
moves them to merge slots as well (`Emitted.Shift`). `Emitted.Issued` is what an instruction emits
for itself, with all that is known of its operands, and `Emitted.From` is what lowering an
instruction emits altogether. Other properties of the code, such as the form of an instruction or
where it may write, follow from these.
-/

namespace SlotJit.Lowering

open SlotJit.Bytecode SlotJit.Ir SlotJit.Semantics

variable {site : Site} {pc index : Nat} {s t u : State} {e : Entry} {ty : ValueType}
  {P Q : Emitted → Prop}

/-! ### Code that grows -/

/-- Instructions with a property were added to the code. -/
def Adds (P : Emitted → Prop) (s t : State) : Prop :=
  ∃ added, t.code.toList = s.code.toList ++ added ∧ ∀ e ∈ added, P e

namespace Adds

/-- Nothing is added if the code is the same. -/
theorem of_code_eq (h : t.code = s.code) : Adds P s t :=
  ⟨[], by rw [h, List.append_nil], fun _ he => absurd he List.not_mem_nil⟩

/-- Code is added, and then more. -/
theorem trans (h : Adds P s t) (h' : Adds P t u) : Adds P s u := by
  obtain ⟨added, hcode, hadded⟩ := h
  obtain ⟨more, hcode', hmore⟩ := h'
  refine ⟨added ++ more, by rw [hcode', hcode, List.append_assoc], fun e he => ?_⟩
  rcases List.mem_append.mp he with he | he
  · exact hadded e he
  · exact hmore e he

/-- One instruction is added. -/
theorem push {i : Emitted} (hcode : t.code = s.code.push i) (hi : P i) : Adds P s t := by
  refine ⟨[i], by rw [hcode, Array.toList_push], fun e he => ?_⟩
  rwa [List.mem_singleton.mp he]

/-- What is added has a weaker property too. -/
theorem mono (h : Adds P s t) (hPQ : ∀ e, P e → Q e) : Adds Q s t := by
  obtain ⟨added, hcode, hadded⟩ := h
  exact ⟨added, hcode, fun e he => hPQ e (hadded e he)⟩

/-- Code only gets longer. -/
theorem size_le (h : Adds P s t) : s.code.size ≤ t.code.size := by
  obtain ⟨added, hcode, -⟩ := h
  rw [← Array.length_toList, ← Array.length_toList, hcode, List.length_append]
  omega

/-- What was there stays in its place. -/
theorem getElem?_of_lt (h : Adds P s t) {k : Nat} (hk : k < s.code.size) :
    t.code[k]? = s.code[k]? := by
  obtain ⟨added, hcode, -⟩ := h
  rw [← Array.getElem?_toList, ← Array.getElem?_toList, hcode,
    List.getElem?_append_left (Array.length_toList ▸ hk)]

/-- What comes after it was added. -/
theorem of_getElem? (h : Adds P s t) {k : Nat} {e : Emitted} (hk : s.code.size ≤ k)
    (he : t.code[k]? = some e) : P e := by
  obtain ⟨added, hcode, hadded⟩ := h
  rw [← Array.getElem?_toList, hcode, List.getElem?_append_right (Array.length_toList ▸ hk)] at he
  exact hadded e (List.mem_of_getElem? he)

end Adds

/-- Instructions with a property were added to the code, and no position was noted. -/
structure Grows (P : Emitted → Prop) (s t : State) : Prop where
  adds : Adds P s t
  positions : t.positions = s.positions

namespace Grows

/-- Nothing was added. -/
theorem of_eq (hcode : t.code = s.code) (hpositions : t.positions = s.positions) : Grows P s t :=
  ⟨.of_code_eq hcode, hpositions⟩

/-- Growing twice is growing. -/
theorem trans (h : Grows P s t) (h' : Grows P t u) : Grows P s u :=
  ⟨h.adds.trans h'.adds, h'.positions.trans h.positions⟩

/-- What was added has any weaker property. -/
theorem mono (h : Grows P s t) (hPQ : ∀ e, P e → Q e) : Grows Q s t :=
  ⟨h.adds.mono hPQ, h.positions⟩

end Grows

/-! ### Operands -/

/-- An operand stands for an entry of a type. -/
def Stands (site : Site) (ty : ValueType) (a : Operand) : Prop :=
  ∃ e : Entry, e.valueType? = some ty ∧ e.operand? site = some a

/-- Entries are never the targets of branches. -/
theorem Stands.ne_branch {a : Operand} (h : Stands site ty a) (target : Int) :
    a ≠ .branch target := by
  obtain ⟨e, -, ha⟩ := h
  rintro rfl
  cases e with
  | literal value => cases value <;> cases ha
  | localVar | merge | tmp | flags => cases ha

/-- A popped operand stands for an entry of the type that was asked for. -/
theorem stands_of_popTyped {a : Operand} (h : Yields (popTyped site pc ty) s a t) :
    Stands site ty a := by
  obtain ⟨e, _, _, -, -, hty, ha, -⟩ := yields_popTyped.mp h
  exact ⟨e, hty, ha⟩

/-- So does an operand that is popped only if there is a type. -/
theorem stands_of_popOptional {ty : Option ValueType} {arg : Option Operand}
    (h : Yields (ty.mapM (popTyped site pc)) s arg t) :
    List.Forall₂ (Stands site) ty.toList arg.toList := by
  cases ty with
  | none =>
      obtain ⟨rfl, -⟩ := yields_pure.mp h
      exact .nil
  | some ty =>
      obtain ⟨a, hpop, rfl⟩ := yields_map.mp h
      exact .cons (stands_of_popTyped hpop) .nil

/-- The operands that are popped one after the other, and what they take on the stack. -/
theorem operands_of_popAll {types : List ValueType} {args : List Operand}
    (h : Yields (types.mapM (popTyped site pc)) s args t) :
    List.Forall₂ (Stands site) types args ∧ t.code = s.code ∧ t.positions = s.positions ∧
      (types.map ValueType.words).sum + (t.stack.entries.map Entry.words).sum =
        (s.stack.entries.map Entry.words).sum := by
  induction types generalizing s args with
  | nil =>
      obtain ⟨rfl, rfl⟩ := yields_mapM_nil.mp h
      exact ⟨.nil, rfl, rfl, Nat.zero_add _⟩
  | cons ty types ih =>
      obtain ⟨a, args, u, hfirst, hrest, rfl⟩ := yields_mapM_cons.mp h
      obtain ⟨e, hentries, hty, ha, hquiet⟩ := quiet_popTyped [] hfirst
      obtain ⟨hargs, hcode, hpositions, hsum⟩ := ih hrest
      refine ⟨.cons ⟨e, hty, ha⟩ hargs, hcode.trans hquiet.code,
        hpositions.trans hquiet.positions, ?_⟩
      have hwords : e.words = ty.words := by rw [Entry.words, hty]
      rw [hentries, List.map_cons, List.map_cons, List.sum_cons, List.sum_cons, hwords, ← hsum]
      omega

/-- The result of an operation goes to a new temporary, if there is one. -/
theorem exists_result {result : Option ValueType} {dst : Option Operand}
    (h : Yields (result.mapM (pushTmp site pc)) s dst t) :
    (∃ index, dst = result.map fun _ => site.tmpSlot index) ∧ t.code = s.code ∧
      t.positions = s.positions := by
  cases result with
  | none =>
      obtain ⟨rfl, rfl⟩ := yields_pure.mp h
      exact ⟨⟨0, rfl⟩, rfl, rfl⟩
  | some ty =>
      obtain ⟨a, hpush, rfl⟩ := yields_map.mp h
      obtain ⟨rfl, -, rfl⟩ := yields_pushTmp.mp hpush
      exact ⟨⟨_, rfl⟩, rfl, rfl⟩

/-! ### What is emitted -/

/-- A copy of an entry to a temporary. -/
def Emitted.Spill (site : Site) (e : Emitted) : Prop :=
  ∃ ty index src, Stands site ty src ∧ e = moveTo ty (site.tmpIndex index) src

/-- A move of a flush: an entry is copied to a temporary or to a merge slot. -/
def Emitted.Shift (site : Site) (e : Emitted) : Prop :=
  e.Spill site ∨ ∃ ty depth src, Stands site ty src ∧
    e = moveTo ty (site.maxLocals.toNat + depth) src

/-- What an instruction emits for itself. The operands of an operation were all on the stack at
once, so they do not take more words than the stack has. -/
inductive Emitted.Issued (site : Site) (l : Located) : Emitted → Prop
  | spill {e : Emitted} (h : e.Spill site) : Issued site l e
  | store {ty : ValueType} {index : Nat} {src : Operand} (hl : l.instr = .store ty index)
      (hindex : index < site.maxLocals.toNat) (hsrc : Stands site ty src) :
      Issued site l (moveTo ty index src)
  | increment {index : Nat} {delta : Int8} (hl : l.instr = .increment index delta)
      (hindex : index < site.maxLocals.toNat) : Issued site l (.inst (addTo index delta))
  | operation {kind : Kind} {front args : List Operand} {op : Operation} (index : Nat)
      (hl : performs? site l.instr = some (kind, front, op))
      (hargs : List.Forall₂ (Stands site) op.params args)
      (hwords : (op.params.map ValueType.words).sum ≤ site.maxStack.toNat) :
      Issued site l (.inst
        { kind, dst := op.result.map fun _ => site.tmpSlot index, args := front ++ args })
  | compare {ty : Comparand} {a b : Operand}
      (hl : l.instr = .compareLong ∨ ∃ comparison condition displacement,
        l.instr = .branch comparison condition displacement)
      (ha : Stands site ty.valueType a) (hb : Stands site ty.valueType b) :
      Issued site l (.inst { kind := .compare ty, args := [a, b] })
  | ret {ty : Option ValueType} {args : List Operand} (hl : l.instr = .ret ty)
      (hargs : List.Forall₂ (Stands site) ty.toList args) :
      Issued site l (.inst { kind := .ret ty, args })

/-- The branch that an instruction emits. -/
def IsBranchOf (l : Located) (e : Emitted) : Prop :=
  ∃ condition target, l.target? = some target ∧ e = .branch condition l.pc target.toNat

/-- What lowering an instruction emits: what belongs to it, and if it branches the moves of a flush
and the branch. -/
inductive Emitted.From (site : Site) (l : Located) : Emitted → Prop
  | issued {e : Emitted} (h : e.Issued site l) : From site l e
  | shift {e : Emitted} (hl : l.instr.displacement? ≠ none) (h : e.Shift site) : From site l e
  | branch {e : Emitted} (h : IsBranchOf l e) : From site l e

/-- An instruction that does not branch emits only what belongs to it. -/
theorem Emitted.From.issued_of_next {l : Located} {e : Emitted} (h : e.From site l)
    (hl : l.instr.displacement? = none) : e.Issued site l := by
  cases h with
  | issued h => exact h
  | shift hbranches => exact absurd hl hbranches
  | branch h =>
      obtain ⟨_, target, htarget, -⟩ := h
      rw [Located.target?, hl] at htarget
      cases htarget

end SlotJit.Lowering

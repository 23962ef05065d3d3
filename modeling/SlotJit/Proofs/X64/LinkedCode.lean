import SlotJit.Proofs.X64.Relaxation
import SlotJit.Proofs.X64.RoundTrip

/-!
# Reading linked code

Linked code is read as what was emitted. `DecodesFrom` reads one instruction after the other from
the start of some code to its end; there is at most one way to do so (`DecodesFrom.unique`).

The items of a linked assembly have the bytes of one instruction each, labels apart, so they can be
read one by one (`decodesFrom_flatMap`). What an emission is read as is `Emission.ReadAs`: the
instruction itself, or a jump of the same condition that leads to the label.
-/

namespace SlotJit.X64

/-- Reading the bytes of some code that starts at an offset, one instruction after the other to the
end, gives these instructions, each with the offset it ends at. -/
inductive DecodesFrom : Nat → List UInt8 → List (Instr × Nat) → Prop
  | nil (offset : Nat) : DecodesFrom offset [] []
  | cons {offset : Nat} {bytes rest : List UInt8} {i : Instr} {instrs : List (Instr × Nat)}
      (head : decode bytes = some (i, rest))
      (tail : DecodesFrom (offset + (bytes.length - rest.length)) rest instrs) :
      DecodesFrom offset bytes ((i, offset + (bytes.length - rest.length)) :: instrs)

/-- Code can be read in one way only. -/
theorem DecodesFrom.unique {offset : Nat} {bytes : List UInt8} {instrs other : List (Instr × Nat)}
    (h : DecodesFrom offset bytes instrs) (h' : DecodesFrom offset bytes other) :
    other = instrs := by
  induction h generalizing other with
  | nil =>
      cases h' with
      | nil => rfl
      | cons head => cases head
  | cons head tail ih =>
      cases h' with
      | nil => cases head
      | cons head' tail' =>
          obtain ⟨rfl, rfl⟩ := Prod.mk.inj (Option.some.inj (head.symm.trans head'))
          rw [ih tail']

/-- Encoded instructions one after the other are read as they were written. -/
theorem DecodesFrom.encode_append {offset : Nat} (i : Instr) {rest : List UInt8}
    {instrs : List (Instr × Nat)} (h : DecodesFrom (offset + (encode i).length) rest instrs) :
    DecodesFrom offset (encode i ++ rest) ((i, offset + (encode i).length) :: instrs) := by
  have hlength : (encode i ++ rest).length - rest.length = (encode i).length := by
    rw [List.length_append, Nat.add_sub_cancel]
  rw [← hlength] at h ⊢
  exact .cons (decode_encode i rest) h

/-- Whether an emission is a label, which has no bytes. -/
def Emission.isLabel : Emission → Bool
  | label _ => true
  | _ => false

/-- Whether an emission is finished bytes. -/
def Emission.isRaw : Emission → Bool
  | raw _ _ => true
  | _ => false

/-- What an emission is read as, with the offset where that ends. A jump is read in one of its
forms, and it leads to its label as long as distances in the code fit 32 bits. -/
def Emission.ReadAs (emissions : List Emission) (a : Assembly) : Emission → Instr × Nat → Prop
  | instr i, (read, _) => read = i
  | jump cond target, (read, finish) =>
      ((∃ distance, read = .jumpShort cond distance) ∨ ∃ distance, read = .jumpLong cond distance) ∧
        ∃ index destination, emissions[index]? = some (label target) ∧
          a.offset? index = some destination ∧
          (a.codeSize < 2 ^ 31 → JumpsTo cond finish destination read)
  | label _, _ | raw _ _, _ => False

/-- Items that have no bytes, for labels, or the bytes of an instruction, for all else, are read as
these instructions. -/
theorem decodesFrom_flatMap {P : Emission → Instr × Nat → Prop} {emissions : List Emission}
    {items : List Item} (hlength : items.length = emissions.length) (offset : Nat)
    (h : ∀ (index : Nat) (e : Emission) (item : Item), emissions[index]? = some e →
      items[index]? = some item → item.bytes.length = item.size ∧
        ((e.isLabel = true ∧ item.bytes = []) ∨ (e.isLabel = false ∧ ∃ i, item.bytes = encode i ∧
          P e (i, offset + startOf items index + item.size)))) :
    ∃ instrs, DecodesFrom offset (items.flatMap Item.bytes) instrs ∧
      List.Forall₂ P (emissions.filter fun e => !e.isLabel) instrs := by
  induction items generalizing emissions offset with
  | nil =>
      rw [List.length_nil, eq_comm, List.length_eq_zero_iff] at hlength
      subst hlength
      exact ⟨[], .nil offset, .nil⟩
  | cons item rest ih =>
      obtain ⟨e, es, rfl⟩ := List.exists_cons_of_length_eq_add_one hlength.symm
      obtain ⟨hsize, hfirst⟩ := h 0 e item rfl rfl
      have htail : ∀ (index : Nat) (e' : Emission) (item' : Item), es[index]? = some e' →
          rest[index]? = some item' → item'.bytes.length = item'.size ∧
            ((e'.isLabel = true ∧ item'.bytes = []) ∨ (e'.isLabel = false ∧ ∃ i,
              item'.bytes = encode i ∧
                P e' (i, offset + item.size + startOf rest index + item'.size))) := by
        intro index e' item' he' hitem'
        have := h (index + 1) e' item' he' hitem'
        rwa [startOf_cons_succ, ← Nat.add_assoc] at this
      obtain ⟨instrs, hdecodes, hread⟩ := ih (Nat.succ.inj hlength) (offset + item.size) htail
      rcases hfirst with ⟨hlabel, hbytes⟩ | ⟨hcode, i, hbytes, hP⟩
      · rw [hbytes, List.length_nil] at hsize
        refine ⟨instrs, ?_, ?_⟩
        · rw [List.flatMap_cons, hbytes, List.nil_append]
          rwa [← hsize, Nat.add_zero] at hdecodes
        · rwa [List.filter_cons_of_neg (by simp [hlabel])]
      · rw [startOf_zero, Nat.add_zero] at hP
        rw [← hsize, hbytes] at hdecodes hP
        refine ⟨(i, offset + (encode i).length) :: instrs, ?_, ?_⟩
        · rw [List.flatMap_cons, hbytes]
          exact hdecodes.encode_append i
        · rw [List.filter_cons_of_pos (by simp [hcode])]
          exact .cons hP hread

/-- The instruction of a jump is a jump of its condition, in one of the forms. -/
theorem Item.jumpInstr_cases (offsets : LabelOffsets) (item : Item) (cond : Option Cond)
    (label : Nat) :
    (∃ distance, item.jumpInstr offsets cond label = .jumpShort cond distance) ∨
      ∃ distance, item.jumpInstr offsets cond label = .jumpLong cond distance := by
  unfold jumpInstr
  split
  · exact Or.inl ⟨_, rfl⟩
  · exact Or.inr ⟨_, rfl⟩

/-- A linked assembly is read as what was emitted. -/
theorem Linked.decodesFrom {emissions : List Emission} {settled : List Item} {a : Assembly}
    (h : Linked emissions settled a) (hraw : ∀ e ∈ emissions, e.isRaw = false) :
    ∃ instrs, DecodesFrom 0 a.bytes instrs ∧
      List.Forall₂ (Emission.ReadAs emissions a) (emissions.filter fun e => !e.isLabel) instrs := by
  refine decodesFrom_flatMap (by rw [Array.length_toList, h.length_items]) 0 ?_
  intro index e item he hitem
  refine ⟨h.length_bytes item (List.mem_of_getElem? hitem), ?_⟩
  rw [Array.getElem?_toList] at hitem
  have hoffset := h.offset_item hitem
  obtain ⟨before, hbefore, rfl⟩ := h.exists_settled hitem
  rw [Nat.zero_add, ← hoffset, (before.write_frame _).2.1, (before.write_frame _).2.2,
    (h.bytes_write hbefore he).2]
  cases e with
  | instr i => exact Or.inr ⟨rfl, i, rfl, rfl⟩
  | raw data fits => exact absurd (hraw _ (List.mem_of_getElem? he)) (by simp [Emission.isRaw])
  | label id => exact Or.inl ⟨rfl, rfl⟩
  | jump cond target =>
      obtain ⟨j, destination, hej, hj, htarget⟩ := h.exists_label he
      refine Or.inr ⟨rfl, _, rfl, before.jumpInstr_cases _ cond target, j, destination.offset, hej,
        by rw [h.offset?_eq, hj]; rfl, fun hsize => ?_⟩
      exact h.jumpsTo hbefore he htarget (h.near (h.codeSize_eq ▸ hsize) hbefore hj)

/-- **Faithful encoding.** Decoding the bytes of an instruction gives the instruction and exactly
the bytes after it, and they are never more than fifteen. So linked code without finished bytes is
read, in one way only, as what was emitted. -/
theorem decode_inverts_encode :
    (∀ (i : Instr) (rest : List UInt8),
      decode (encode i ++ rest) = some (i, rest) ∧ (encode i).length ≤ 15) ∧
    ∀ emissions : List Emission, (∀ e ∈ emissions, e.isRaw = false) →
      ∀ total, (Assembly.ofEmissions emissions).link.2 = .ok total →
      ∃ instrs, DecodesFrom 0 (Assembly.ofEmissions emissions).link.1.bytes instrs ∧
        List.Forall₂ (Emission.ReadAs emissions (Assembly.ofEmissions emissions).link.1)
          (emissions.filter fun e => !e.isLabel) instrs ∧
        ∀ other, DecodesFrom 0 (Assembly.ofEmissions emissions).link.1.bytes other →
          other = instrs := by
  refine ⟨fun i rest => ⟨decode_encode i rest, length_encode_le i⟩,
    fun emissions hraw total hlink => ?_⟩
  obtain ⟨-, settled, hlinked⟩ := linked_of_link hlink
  obtain ⟨instrs, hdecodes, hread⟩ := hlinked.decodesFrom hraw
  exact ⟨instrs, hdecodes, hread, fun other hother => hdecodes.unique hother⟩

/-- A jump over an instruction with every part an encoding can have, then one that takes a REX byte
only for the sake of its byte register. -/
def skippedLoad : List Emission :=
  [.jump (some .e) 0,
    .instr (.load .qword .r9
      { base := .r13, index := some ⟨.r12, .eight, by decide⟩, disp := -129 }),
    .label 0,
    .instr (.extend true .byte .rax .rsi)]

/-- The code is read as the jump and the two instructions. -/
theorem decode_inverts_encode_skippedLoad :
    (∀ e ∈ skippedLoad, e.isRaw = false) ∧ (Assembly.ofEmissions skippedLoad).link.2 = .ok 14 ∧
      ∃ instrs, DecodesFrom 0 (Assembly.ofEmissions skippedLoad).link.1.bytes instrs ∧
        List.Forall₂ (Emission.ReadAs skippedLoad (Assembly.ofEmissions skippedLoad).link.1)
          (skippedLoad.filter fun e => !e.isLabel) instrs := by
  have hraw : ∀ e ∈ skippedLoad, e.isRaw = false := by decide
  have hlink : (Assembly.ofEmissions skippedLoad).link.2 = .ok 14 := by decide +kernel
  obtain ⟨instrs, hdecodes, hread, -⟩ := decode_inverts_encode.2 skippedLoad hraw 14 hlink
  exact ⟨hraw, hlink, instrs, hdecodes, hread⟩

end SlotJit.X64

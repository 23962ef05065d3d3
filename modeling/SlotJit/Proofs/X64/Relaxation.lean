import SlotJit.Proofs.X64.Layout

/-!
# Jump relaxation

Linking lays an assembly out, widens the short jumps whose label is out of reach, and starts again
until no jump grows. This module proves what it leads to. The argument has two halves. A pass only
grows items (`Item.Grown`), which is kept through any number of passes and fixes what an item can
look like at the end. The last pass grew nothing, so every jump that is still short reaches its
label in the very layout that linking leaves behind, and the sum that this layout came to is the
size of the code (`relax_settled`).

Errors are decided before any jump grows: a pass fails exactly if a short jump names a label that no
item binds, and passes change neither the labels bound nor the jumps that are left short and fine
(`relax_snd`).

## Main results

* `relax_grown`, `relax_settled`, `relax_snd`: the three facts above.
* `link_resolves`: linking reports a label bound twice, else a jump to an unbound label, and else
  leaves a code in which every item stands at the sum of the sizes before it and every jump goes
  exactly to its label.
-/

namespace SlotJit.X64

variable {items items' : List Item} {emissions : List Emission} {offsets : LabelOffsets}
  {cond : Option Cond} {index target : Nat} {bound : List Nat}

/-! ### Growing -/

/-- What relaxation may do to an item besides placing it: a short jump becomes long. -/
structure Item.Grown (a b : Item) : Prop where
  form : b.form = a.form
  written : b.written = a.written
  size : b.size = a.size ∨
    ∃ cond label, a.form = .jump cond label ∧ a.size = 2 ∧ b.size = longSize cond

/-- No long jump has the size of a short one. -/
theorem longSize_ne_two (cond : Option Cond) : longSize cond ≠ 2 := by
  cases cond <;> simp [longSize]

/-- An item that did not change has grown by nothing. -/
theorem Item.Grown.refl (a : Item) : a.Grown a := ⟨rfl, rfl, Or.inl rfl⟩

/-- Growing twice is growing: a jump that has become long stays as it is. -/
theorem Item.Grown.trans {a b c : Item} (hab : a.Grown b) (hbc : b.Grown c) : a.Grown c := by
  refine ⟨hbc.form.trans hab.form, hbc.written.trans hab.written, ?_⟩
  rcases hbc.size with hsize | ⟨cond, label, hform, hshort, hlong⟩
  · rw [hsize]
    exact hab.size
  · rcases hab.size with hsize | ⟨cond', _, _, _, hlong'⟩
    · exact Or.inr ⟨cond, label, hab.form ▸ hform, hsize ▸ hshort, hlong⟩
    · exact absurd (hlong'.symm.trans hshort) (longSize_ne_two cond')

/-- Placing an item does not grow it. -/
theorem Item.grown_place (item : Item) (offset : Nat) : item.Grown { item with offset } :=
  ⟨rfl, rfl, Or.inl rfl⟩

/-- Widening grows an item. -/
theorem Item.grown_widen {item item' : Item} {grew : Bool}
    (h : item.widen offsets = .ok (item', grew)) : item.Grown item' := by
  obtain ⟨-, rfl, -⟩ | ⟨-, cond, label, -, hform, hshort, -, -, rfl⟩ := Item.widen_cases h
  · exact .refl item'
  · exact ⟨rfl, rfl, Or.inr ⟨cond, label, hform, hshort, rfl⟩⟩

/-- Laying items out grows none of them. -/
theorem grown_layoutFrom (offset : Nat) (items : List Item) :
    List.Forall₂ Item.Grown items (layoutFrom offset items) := by
  induction items generalizing offset with
  | nil => exact .nil
  | cons item rest ih => exact .cons (item.grown_place offset) (ih _)

/-- A pass grows items, also one that ends at an undefined label. -/
theorem grown_widenAll (offsets : LabelOffsets) (items : List Item) :
    List.Forall₂ Item.Grown items (widenAll offsets items).1 := by
  induction items with
  | nil => exact .nil
  | cons item rest ih =>
      rw [widenAll]
      split
      · exact List.forall₂_same.mpr fun a _ => .refl a
      · rename_i hwiden
        exact .cons (Item.grown_widen hwiden) ih

/-- Growing twice is growing. -/
theorem grown_trans {l₁ l₂ l₃ : List Item} (h₁₂ : List.Forall₂ Item.Grown l₁ l₂)
    (h₂₃ : List.Forall₂ Item.Grown l₂ l₃) : List.Forall₂ Item.Grown l₁ l₃ := by
  induction h₁₂ generalizing l₃ with
  | nil =>
      cases h₂₃
      exact .nil
  | cons hab _ ih =>
      cases h₂₃ with
      | cons hbc hrest => exact .cons (hab.trans hbc) (ih hrest)

/-- Items that grew have the forms they had. -/
theorem map_form_of_grown (h : List.Forall₂ Item.Grown items items') :
    items'.map Item.form = items.map Item.form := by
  induction h with
  | nil => rfl
  | cons hab _ ih => rw [List.map_cons, List.map_cons, hab.form, ih]

/-- Items that grew bind the labels they bound. -/
theorem boundLabels_of_grown (h : List.Forall₂ Item.Grown items items') :
    boundLabels items' = boundLabels items :=
  boundLabels_congr (map_form_of_grown h)

/-- Relaxation grows items, whether it succeeds or not. -/
theorem relax_grown (items : List Item) : List.Forall₂ Item.Grown items (relax items).1 := by
  have hpass (items : List Item) := grown_trans (grown_layoutFrom 0 items)
    (grown_widenAll (labelOffsets (layoutFrom 0 items)) (layoutFrom 0 items))
  fun_induction relax items with
  | case1 items laidOut widened e hwiden =>
      have hgrown := hpass items
      rwa [hwiden] at hgrown
  | case2 items laidOut widened hwiden hfewer ih =>
      have hgrown := hpass items
      rw [hwiden] at hgrown
      exact grown_trans hgrown ih
  | case3 items laidOut widened hwiden =>
      have hgrown := hpass items
      rwa [hwiden] at hgrown

/-! ### The last pass -/

/-- A pass that makes no jump long changes nothing, and every short jump reaches its label. -/
theorem widenAll_settled {widened : List Item} (h : widenAll offsets items = (widened, .ok false)) :
    widened = items ∧ ∀ item ∈ items, item.Reaches offsets := by
  induction items generalizing widened with
  | nil =>
      cases h
      simp
  | cons item rest ih =>
      obtain ⟨item', grew, rest', grown, hitem, hrest, rfl, hfalse⟩ := widenAll_cons_eq_ok h
      obtain ⟨rfl, rfl⟩ := Bool.or_eq_false_iff.mp hfalse.symm
      obtain ⟨rfl, hall⟩ := ih hrest
      obtain ⟨-, rfl, hreach⟩ | ⟨hgrew, -⟩ := Item.widen_cases hitem
      · exact ⟨rfl, List.forall_mem_cons.mpr ⟨hreach, hall⟩⟩
      · cases hgrew

/-- A layout ends at the sum of the sizes. -/
theorem layoutEnd_eq (offset : Nat) (items : List Item) :
    layoutEnd offset items = offset + (items.map Item.size).sum := by
  induction items generalizing offset with
  | nil => rfl
  | cons item rest ih => rw [layoutEnd, ih, List.map_cons, List.sum_cons, Nat.add_assoc]

/-- **Settled.** When relaxation succeeds the items are laid out, the result is the sum of their
sizes, and every jump that is still short reaches its label in that layout. -/
theorem relax_settled {settled : List Item} {total : Nat} (h : relax items = (settled, .ok total)) :
    (∃ before, settled = layoutFrom 0 before) ∧ total = (settled.map Item.size).sum ∧
      ∀ item ∈ settled, item.Reaches (labelOffsets settled) := by
  fun_induction relax items with
  | case1 items laidOut widened e hwiden => cases h
  | case2 items laidOut widened hwiden hfewer ih => exact ih h
  | case3 items laidOut widened hwiden =>
      obtain ⟨hsame, hreaches⟩ := widenAll_settled hwiden
      obtain ⟨hsettled, htotal⟩ := Prod.mk.inj h
      obtain rfl : laidOut = settled := hsame.symm.trans hsettled
      refine ⟨⟨items, rfl⟩, ?_, hreaches⟩
      rw [← Except.ok.inj htotal, layoutEnd_eq, Nat.zero_add,
        map_layoutFrom Item.size (fun _ _ => rfl)]

/-! ### Undefined labels -/

/-- The label of a short jump that is not among the labels bound. -/
def Item.missing? (bound : List Nat) (item : Item) : Option Nat :=
  match item.form with
  | .jump _ label => if item.size = 2 ∧ label ∉ bound then some label else none
  | _ => none

/-- Widening an item fails exactly if it is a short jump to a label without an offset. -/
theorem Item.widen_eq_error_iff (hoff : ∀ id, offsets[id]? = none ↔ id ∉ bound) {item : Item}
    {e : AssemblyError} :
    item.widen offsets = .error e ↔ ∃ label, item.missing? bound = some label ∧
      e = .undefinedLabel label := by
  unfold widen missing?
  cases hform : item.form with
  | code => simp
  | label id => simp
  | jump cond label =>
      by_cases hshort : item.size = 2
      · by_cases hbound : label ∈ bound
        · obtain ⟨target, htarget⟩ : ∃ target, offsets[label]? = some target := by
            cases hlabel : offsets[label]? with
            | none => exact absurd hbound ((hoff label).mp hlabel)
            | some target => exact ⟨target, rfl⟩
          simp only [hshort, htarget, hbound]
          by_cases hfits : fitsShort ((target : Int) - (item.offset + 2 : Nat)) = true
          · rw [if_pos hfits]
            simp
          · rw [if_neg hfits]
            simp
        · simp [hshort, (hoff label).mpr hbound, hbound, eq_comm]
      · simp [hshort]

/-- A pass fails at the first short jump whose label is unbound. -/
theorem widenAll_snd (hoff : ∀ id, offsets[id]? = none ↔ id ∉ bound) (items : List Item) :
    (∀ label, items.findSome? (Item.missing? bound) = some label →
      (widenAll offsets items).2 = .error (.undefinedLabel label)) ∧
    (items.findSome? (Item.missing? bound) = none →
      ∃ grown, (widenAll offsets items).2 = .ok grown) := by
  induction items with
  | nil => exact ⟨fun _ h => absurd h (by simp), fun _ => ⟨false, rfl⟩⟩
  | cons item rest ih =>
      rw [widenAll, List.findSome?_cons]
      cases hwiden : item.widen offsets with
      | error e =>
          obtain ⟨label, hmissing, rfl⟩ := (Item.widen_eq_error_iff hoff).mp hwiden
          rw [hmissing]
          exact ⟨fun _ h =>
            congrArg _ (congrArg _ (Option.some.inj h)), fun h => absurd h (by simp)⟩
      | ok result =>
          cases hmissing : item.missing? bound with
          | none =>
              refine ⟨fun label h => ?_, fun h => ?_⟩
              · exact congrArg (Except.map (result.2 || ·)) (ih.1 label h)
              · obtain ⟨grown, hgrown⟩ := ih.2 h
                exact ⟨_, congrArg (Except.map (result.2 || ·)) hgrown⟩
          | some label =>
              rw [(Item.widen_eq_error_iff hoff).mpr ⟨label, hmissing, rfl⟩] at hwiden
              cases hwiden

/-- An item without a missing label has none after it grew. -/
theorem Item.Grown.missing?_eq_none {a b : Item} (h : a.Grown b) (ha : a.missing? bound = none) :
    b.missing? bound = none := by
  unfold missing? at ha ⊢
  rw [h.form]
  split at ha
  · rename_i cond label hform
    rcases h.size with hsize | ⟨cond', _, _, _, hlong⟩
    · rw [hsize]
      exact ha
    · simp [hlong, longSize_ne_two]
  · exact ha

/-- Items without missing labels have none after they grew. -/
theorem findSome?_missing_of_grown (h : List.Forall₂ Item.Grown items items')
    (hnone : items.findSome? (Item.missing? bound) = none) :
    items'.findSome? (Item.missing? bound) = none := by
  induction h with
  | nil => rfl
  | cons hab _ ih =>
      rw [List.findSome?_cons] at hnone ⊢
      split at hnone
      · cases hnone
      · rename_i ha
        rw [hab.missing?_eq_none ha]
        exact ih hnone

/-- Placing items changes no missing label. -/
theorem findSome?_missing_layoutFrom (bound : List Nat) (offset : Nat) (items : List Item) :
    (layoutFrom offset items).findSome? (Item.missing? bound) =
      items.findSome? (Item.missing? bound) := by
  induction items generalizing offset with
  | nil => rfl
  | cons item rest ih =>
      rw [layoutFrom, List.findSome?_cons, List.findSome?_cons, ih]
      rfl

/-- A pass over laid out items fails at the first short jump whose label no item binds. -/
theorem widenAll_layoutFrom_snd (items : List Item) :
    (∀ label, items.findSome? (Item.missing? (boundLabels items)) = some label →
      (widenAll (labelOffsets (layoutFrom 0 items)) (layoutFrom 0 items)).2 =
        .error (.undefinedLabel label)) ∧
    (items.findSome? (Item.missing? (boundLabels items)) = none →
      ∃ grown, (widenAll (labelOffsets (layoutFrom 0 items)) (layoutFrom 0 items)).2 =
        .ok grown) := by
  have hoff : ∀ id, (labelOffsets (layoutFrom 0 items))[id]? = none ↔ id ∉ boundLabels items := by
    intro id
    rw [labelOffsets_getElem?_eq_none_iff, boundLabels_of_grown (grown_layoutFrom 0 items)]
  rw [← findSome?_missing_layoutFrom (boundLabels items) 0 items]
  exact widenAll_snd hoff (layoutFrom 0 items)

/-- Relaxation fails exactly if a short jump names an unbound label, and reports the first one. -/
theorem relax_snd (items : List Item) :
    (∀ label, items.findSome? (Item.missing? (boundLabels items)) = some label →
      (relax items).2 = .error (.undefinedLabel label)) ∧
    (items.findSome? (Item.missing? (boundLabels items)) = none →
      ∃ total, (relax items).2 = .ok total) := by
  fun_induction relax items with
  | case1 items laidOut widened e hwiden =>
      have hpass := widenAll_layoutFrom_snd items
      rw [hwiden] at hpass
      refine ⟨fun label hlabel => ?_, fun hnone => absurd (hpass.2 hnone) (by simp)⟩
      rw [Except.error.inj (hpass.1 label hlabel)]
  | case2 items laidOut widened hwiden hfewer ih =>
      have hpass := widenAll_layoutFrom_snd items
      have hgrown := grown_trans (grown_layoutFrom 0 items)
        (grown_widenAll (labelOffsets (layoutFrom 0 items)) (layoutFrom 0 items))
      rw [hwiden] at hpass hgrown
      rw [boundLabels_of_grown hgrown] at ih
      refine ⟨fun label hlabel => absurd (hpass.1 label hlabel) (by simp), fun hnone => ?_⟩
      exact ih.2 (findSome?_missing_of_grown hgrown hnone)
  | case3 items laidOut widened hwiden =>
      have hpass := widenAll_layoutFrom_snd items
      rw [hwiden] at hpass
      exact ⟨fun label hlabel => absurd (hpass.1 label hlabel) (by simp), fun _ => ⟨_, rfl⟩⟩

/-! ### Emissions -/

/-- What can be added to an assembly. Finished bytes are no longer than an instruction. -/
inductive Emission where
  | instr (instr : Instr)
  | raw (bytes : List UInt8) (fits : bytes.length ≤ maxInstrLength)
  | label (id : Nat)
  | jump (cond : Option Cond) (target : Nat)

namespace Emission

/-- The item that is added. -/
def item : Emission → Item
  | instr i => .ofBytes (encode i)
  | raw bytes _ => .ofBytes bytes
  | label id => .label id
  | jump cond target => .jump cond target

/-- The label that is bound. -/
def bound? : Emission → Option Nat
  | label id => some id
  | _ => none

/-- The label that a jump names. -/
def named? : Emission → Option Nat
  | jump _ target => some target
  | _ => none

end Emission

/-- The assembly that emissions in order lead to. -/
def Assembly.ofEmissions (emissions : List Emission) : Assembly :=
  emissions.foldl (fun a e => a.add e.item) {}

/-- Emissions become items one by one. -/
theorem items_ofEmissions (emissions : List Emission) :
    (Assembly.ofEmissions emissions).items.toList = emissions.map Emission.item := by
  have key : ∀ a : Assembly, (emissions.foldl (fun a e => a.add e.item) a).items.toList =
      a.items.toList ++ emissions.map Emission.item := by
    induction emissions with
    | nil => simp
    | cons e rest ih =>
        intro a
        rw [List.foldl_cons, ih, Assembly.add, Array.toList_push, List.map_cons,
          List.append_assoc, List.singleton_append]
  exact key {}

/-- The labels that the items of emissions bind are those the emissions bind. -/
theorem boundLabels_map_item (emissions : List Emission) :
    boundLabels (emissions.map Emission.item) = emissions.filterMap Emission.bound? := by
  rw [boundLabels, List.filterMap_map]
  refine congrArg (fun f => emissions.filterMap f) (funext fun e => ?_)
  cases e <;> rfl

/-- The items of emissions miss the label of every jump that names an unbound one. -/
theorem missing?_item (bound : List Nat) (e : Emission) :
    e.item.missing? bound = e.named?.filter fun target => decide (target ∉ bound) := by
  cases e with
  | jump cond target =>
      by_cases h : target ∈ bound <;>
        simp [Emission.item, Emission.named?, Item.jump, Item.missing?, Option.filter_some, h]
  | instr | raw | label => rfl

/-! ### Code that jumps where it should -/

/-- The opcode of a jump in its short form: `EB`, or `7x` with the number of the condition. -/
def shortOpcode : Option Cond → List UInt8
  | none => [0xeb]
  | some cond => [UInt8.ofNat (0x70 + cond.number)]

/-- The opcode of a jump in its long form: `E9`, or `0F 8x` with the number of the condition. -/
def longOpcode : Option Cond → List UInt8
  | none => [0xe9]
  | some cond => [0x0f, UInt8.ofNat (0x80 + cond.number)]

/-- The bytes of a jump at an offset that goes to another: the opcode of its form, and the distance
from its end, which the form can hold. -/
inductive JumpBytes (cond : Option Cond) (start target : Nat) : List UInt8 → Prop
  | short (distance : Int8) (h : (start + 2 : Nat) + distance.toInt = target) :
      JumpBytes cond start target (shortOpcode cond ++ [distance.toUInt8])
  | long (distance : Int32) (h : (start + longSize cond : Nat) + distance.toInt = target) :
      JumpBytes cond start target (longOpcode cond ++ littleEndian 4 distance.toUInt32.toNat)

/-- Jumps on a condition that end at one offset and lead to another. -/
inductive JumpsTo (cond : Option Cond) (finish target : Nat) : Instr → Prop
  | short (distance : Int8) (h : (finish : Int) + distance.toInt = target) :
      JumpsTo cond finish target (.jumpShort cond distance)
  | long (distance : Int32) (h : (finish : Int) + distance.toInt = target) :
      JumpsTo cond finish target (.jumpLong cond distance)

/-- The bytes that an emission stands for at an offset of laid out emissions. -/
def Emission.BytesAt (emissions : List Emission) (offsetAt : Nat → Option Nat) (offset : Nat)
    (bytes : List UInt8) : Emission → Prop
  | instr i => bytes = encode i
  | raw data _ => bytes = data
  | label _ => bytes = []
  | jump cond target => ∃ index destination, emissions[index]? = some (label target) ∧
      offsetAt index = some destination ∧ JumpBytes cond offset destination bytes

/-- What linking promises of the assembly of emissions: every item is at the sum of the sizes before
it, its bytes are in the code from there on, and they are what was emitted, with every jump going
to its label. -/
structure Assembly.Resolved (emissions : List Emission) (a : Assembly) : Prop where
  count : a.items.size = emissions.length
  size : a.bytes.length = a.codeSize
  place : ∀ (index : Nat) (item : Item), a.items[index]? = some item →
    item.offset = startOf a.items.toList index ∧ item.bytes.length = item.size ∧
      (a.bytes.drop item.offset).take item.size = item.bytes
  content : ∀ (index : Nat) (item : Item) (e : Emission), a.items[index]? = some item →
    emissions[index]? = some e → e.BytesAt emissions a.offset? item.offset item.bytes

/-- The bytes of a short jump. -/
theorem encode_jumpShort (cond : Option Cond) (distance : Int8) :
    encode (.jumpShort cond distance) = shortOpcode cond ++ [distance.toUInt8] := by
  cases cond <;> rfl

/-- The bytes of a long jump. -/
theorem encode_jumpLong (cond : Option Cond) (distance : Int32) :
    encode (.jumpLong cond distance) =
      longOpcode cond ++ littleEndian 4 distance.toUInt32.toNat := by
  cases cond <;> rfl

/-- The size of a long jump. -/
theorem length_encode_jumpLong (cond : Option Cond) (distance : Int32) :
    (encode (.jumpLong cond distance)).length = longSize cond := by
  cases cond <;> simp [encode, imm32, littleEndian, longSize]

/-- Writing an item keeps its form, its size and its place. -/
theorem Item.write_frame (offsets : LabelOffsets) (item : Item) :
    (item.write offsets).form = item.form ∧ (item.write offsets).size = item.size ∧
      (item.write offsets).offset = item.offset := by
  unfold write
  split <;> exact ⟨rfl, rfl, rfl⟩

/-- Writing leaves an item that is no jump alone. -/
theorem Item.write_of_not_jump (offsets : LabelOffsets) {item : Item}
    (h : ∀ cond label, item.form ≠ .jump cond label) : item.write offsets = item := by
  unfold write
  split
  · exact absurd ‹_› (h _ _)
  · rfl

/-- A written jump has the bytes of its instruction, as many as its form takes. -/
theorem Item.bytes_write_jump (offsets : LabelOffsets) {item : Item} {label : Nat}
    (hform : item.form = .jump cond label) (hsize : item.size = 2 ∨ item.size = longSize cond) :
    (item.write offsets).bytes = encode (item.jumpInstr offsets cond label) ∧
      (encode (item.jumpInstr offsets cond label)).length = item.size := by
  have hlength : (encode (item.jumpInstr offsets cond label)).length = item.size := by
    unfold jumpInstr
    rcases hsize with hshort | hlong
    · rw [if_pos hshort, encode_jumpShort, hshort]
      cases cond <;> rfl
    · rw [if_neg (hlong ▸ longSize_ne_two cond), length_encode_jumpLong, hlong]
  refine ⟨?_, hlength⟩
  simp only [write, hform, bytes]
  rw [hlength, Nat.sub_self, List.replicate_zero, List.append_nil]

/-- The distance from one offset to another fits 32 bits. -/
def Near (start target : Nat) : Prop :=
  -2 ^ 31 ≤ (target : Int) - start ∧ (target : Int) - start < 2 ^ 31

/-- The instruction of a jump leads to its label, provided the distance fits its form. -/
theorem Item.jumpsTo_jumpInstr {item : Item} {label : Nat} (htarget : offsets[label]? = some target)
    (hsize : (item.size = 2 ∧ fitsShort ((target : Int) - (item.offset + 2 : Nat)) = true) ∨
      (item.size = longSize cond ∧ Near (item.offset + item.size) target)) :
    JumpsTo cond (item.offset + item.size) target (item.jumpInstr offsets cond label) := by
  have hget : offsets.getD label 0 = target := by
    rw [Std.HashMap.getD_eq_getD_getElem?, htarget, Option.getD_some]
  unfold jumpInstr
  rcases hsize with ⟨hshort, hfits⟩ | ⟨hlong, hleast, hmost⟩
  · simp only [fitsShort, Bool.and_eq_true, decide_eq_true_eq] at hfits
    rw [if_pos hshort, hget, hshort]
    refine .short _ ?_
    rw [Int8.toInt_ofInt_of_le (by omega) (by omega)]
    omega
  · rw [if_neg (hlong ▸ longSize_ne_two cond), hget]
    refine .long _ ?_
    rw [Int32.toInt_ofInt_of_le (by omega) (by omega)]
    omega

/-- The instruction of a jump that leads to its label has the bytes of a jump there. -/
theorem Item.jumpBytes_of_jumpsTo {item : Item} {label : Nat}
    (hsize : item.size = 2 ∨ item.size = longSize cond)
    (h : JumpsTo cond (item.offset + item.size) target (item.jumpInstr offsets cond label)) :
    JumpBytes cond item.offset target (encode (item.jumpInstr offsets cond label)) := by
  unfold jumpInstr at h ⊢
  rcases hsize with hshort | hlong
  · rw [if_pos hshort] at h ⊢
    cases h with
    | short distance h => rw [encode_jumpShort]; exact .short _ (hshort ▸ h)
  · rw [if_neg (hlong ▸ longSize_ne_two cond)] at h ⊢
    cases h with
    | long distance h => rw [encode_jumpLong]; exact .long _ (hlong ▸ h)

/-! ### Linking -/

/-- The items that a successful link leaves, before the jumps are written: the emitted items, grown,
laid out, and with every short jump in reach of its label. -/
structure Settled (emissions : List Emission) (settled : List Item) : Prop where
  grown : List.Forall₂ Item.Grown (emissions.map Emission.item) settled
  laidOut : ∃ before, settled = layoutFrom 0 before
  reaches : ∀ item ∈ settled, item.Reaches (labelOffsets settled)
  nodup : (boundLabels settled).Nodup
  named : ∀ target ∈ emissions.filterMap Emission.named?, target ∈ boundLabels settled

namespace Settled

variable {emissions : List Emission} {settled : List Item}
  (h : Settled emissions settled)

include h

/-- The item of an emission and how it grew from it. -/
theorem grown_item {item : Item} {e : Emission} (hitem : settled[index]? = some item)
    (he : emissions[index]? = some e) : e.item.Grown item := by
  obtain ⟨hlength, hall⟩ := List.forall₂_iff_get.mp h.grown
  obtain ⟨hlt, rfl⟩ := List.getElem?_eq_some_iff.mp hitem
  obtain ⟨hlt', rfl⟩ := List.getElem?_eq_some_iff.mp he
  have := hall index (by simpa using hlt') hlt
  simpa using this

/-- The emission of an item. -/
theorem exists_emission {item : Item} (hitem : settled[index]? = some item) :
    ∃ e, emissions[index]? = some e := by
  obtain ⟨hlt, -⟩ := List.getElem?_eq_some_iff.mp hitem
  have hlength := h.grown.length_eq
  rw [List.length_map] at hlength
  exact ⟨_, List.getElem?_eq_getElem (hlength ▸ hlt)⟩

/-- Every item is at the sum of the sizes before it. -/
theorem offset_eq {item : Item} (hitem : settled[index]? = some item) :
    item.offset = startOf settled index := by
  obtain ⟨before, rfl⟩ := h.laidOut
  exact offset_of_layoutFrom hitem

/-- A label that a jump names is bound by an emission, and has the offset of its item. -/
theorem exists_label (he : emissions[index]? = some (.jump cond target)) :
    ∃ (j : Nat) (item : Item), emissions[j]? = some (.label target) ∧ settled[j]? = some item ∧
      (labelOffsets settled)[target]? = some item.offset := by
  have hbound : target ∈ boundLabels settled :=
    h.named target (List.mem_filterMap.mpr ⟨_, List.mem_of_getElem? he, rfl⟩)
  obtain ⟨item, hmem, hid⟩ := List.mem_filterMap.mp hbound
  obtain ⟨j, hj⟩ := List.getElem?_of_mem hmem
  have hform := Item.labelId?_eq_some.mp hid
  obtain ⟨e, hej⟩ := h.exists_emission hj
  have hgrown := (h.grown_item hj hej).form
  rw [hform] at hgrown
  refine ⟨j, item, ?_, hj, labelOffsets_getElem?_of_label h.nodup hj hform⟩
  cases e with
  | label id =>
      rw [Emission.item, Item.label, Form.label.injEq] at hgrown
      rw [hej, hgrown]
  | instr | raw | jump => cases hgrown

/-- A jump has one of its two sizes. -/
theorem size_jump {item : Item} (hitem : settled[index]? = some item)
    (he : emissions[index]? = some (.jump cond target)) : item.size = 2 ∨
      item.size = longSize cond := by
  rcases (h.grown_item hitem he).size with heq | ⟨_, _, hjump, -, heq⟩
  · exact Or.inl heq
  · rw [Emission.item, Item.jump, Form.jump.injEq] at hjump
    exact Or.inr (hjump.1 ▸ heq)

/-- The bytes of a written item: what was emitted, and for a jump those of its instruction. -/
theorem bytes_write {item : Item} {e : Emission} (hitem : settled[index]? = some item)
    (he : emissions[index]? = some e) :
    (item.write (labelOffsets settled)).bytes.length = item.size ∧
      (item.write (labelOffsets settled)).bytes =
        match e with
        | .instr i => encode i
        | .raw data _ => data
        | .label _ => []
        | .jump cond target => encode (item.jumpInstr (labelOffsets settled) cond target) := by
  have hgrown := h.grown_item hitem he
  -- Items other than jumps have kept their size, and their bytes were there from the start.
  have hfixed : (∀ cond label, e.item.form ≠ .jump cond label) →
      item.write (labelOffsets settled) = item ∧ item.size = e.item.size := by
    intro hform
    refine ⟨Item.write_of_not_jump _ (hgrown.form ▸ hform), ?_⟩
    rcases hgrown.size with heq | ⟨cond, label, hjump, -⟩
    · exact heq
    · exact absurd hjump (hform cond label)
  cases e with
  | instr i =>
      obtain ⟨hwrite, heq⟩ := hfixed (by simp [Emission.item, Item.ofBytes])
      simp [hwrite, Item.bytes, hgrown.written, heq, Emission.item, Item.ofBytes]
  | raw data fits =>
      obtain ⟨hwrite, heq⟩ := hfixed (by simp [Emission.item, Item.ofBytes])
      simp [hwrite, Item.bytes, hgrown.written, heq, Emission.item, Item.ofBytes]
  | label id =>
      obtain ⟨hwrite, heq⟩ := hfixed (by simp [Emission.item, Item.label])
      simp [hwrite, Item.bytes, hgrown.written, heq, Emission.item, Item.label]
  | jump cond target =>
      obtain ⟨hbytes, hlength⟩ := Item.bytes_write_jump (labelOffsets settled) hgrown.form
        (h.size_jump hitem he)
      exact ⟨hbytes ▸ hlength, hbytes⟩

/-- In code shorter than `2 ^ 31` bytes all items are near each other. -/
theorem near (hsize : (settled.map Item.size).sum < 2 ^ 31) {j : Nat} {item destination : Item}
    (hitem : settled[index]? = some item) (hj : settled[j]? = some destination) :
    Near (item.offset + item.size) destination.offset := by
  have hend := startOf_add_size_le hitem
  have hdest := startOf_add_size_le hj
  rw [← h.offset_eq hitem] at hend
  rw [← h.offset_eq hj] at hdest
  constructor <;> omega

/-- The instruction of a jump leads to its label, if that is near. -/
theorem jumpsTo {item destination : Item} (hitem : settled[index]? = some item)
    (he : emissions[index]? = some (.jump cond target))
    (htarget : (labelOffsets settled)[target]? = some destination.offset)
    (hnear : Near (item.offset + item.size) destination.offset) :
    JumpsTo cond (item.offset + item.size) destination.offset
      (item.jumpInstr (labelOffsets settled) cond target) := by
  refine Item.jumpsTo_jumpInstr htarget ?_
  rcases h.size_jump hitem he with hshort | hlong
  · obtain ⟨target', htarget', hfits⟩ := h.reaches item (List.mem_of_getElem? hitem) cond target
      (h.grown_item hitem he).form hshort
    rw [htarget, Option.some.injEq] at htarget'
    exact Or.inl ⟨hshort, htarget' ▸ hfits⟩
  · exact Or.inr ⟨hlong, hnear⟩

end Settled

/-- The linked assembly of settled items: their jumps are written. -/
structure Linked (emissions : List Emission) (settled : List Item) (a : Assembly) : Prop
    extends Settled emissions settled where
  items : a.items.toList = settled.map (Item.write (labelOffsets settled))

namespace Linked

variable {emissions : List Emission} {settled : List Item} {a : Assembly}
  (h : Linked emissions settled a)

include h

/-- Every item of the assembly is a settled one that was written. -/
theorem exists_settled {item : Item} (hitem : a.items[index]? = some item) :
    ∃ before, settled[index]? = some before ∧ before.write (labelOffsets settled) = item := by
  rw [← Array.getElem?_toList, h.items, List.getElem?_map, Option.map_eq_some_iff] at hitem
  exact hitem

/-- Linking leaves the sizes as they were settled. -/
theorem map_size : a.items.toList.map Item.size = settled.map Item.size := by
  rw [h.items, List.map_map]
  exact List.map_congr_left fun item _ => (item.write_frame _).2.1

/-- The size of the code is settled. -/
theorem codeSize_eq : a.codeSize = (settled.map Item.size).sum := by
  rw [Assembly.codeSize_eq_sum, h.map_size]

/-- The offsets are settled. -/
theorem offset?_eq (index : Nat) : a.offset? index = settled[index]?.map Item.offset := by
  rw [Assembly.offset?, ← Array.getElem?_toList, h.items, List.getElem?_map, Option.map_map]
  exact congrArg (fun f => Option.map f settled[index]?)
    (funext fun item => (item.write_frame _).2.2)

/-- There is an item for each emission. -/
theorem length_items : a.items.size = emissions.length := by
  have hlength := h.grown.length_eq
  rw [List.length_map] at hlength
  rw [← Array.length_toList, h.items, List.length_map, hlength]

/-- An item has as many bytes as its size says. -/
theorem length_bytes : ∀ item ∈ a.items.toList, item.bytes.length = item.size := by
  intro item hmem
  obtain ⟨index, hitem⟩ := List.getElem?_of_mem hmem
  rw [Array.getElem?_toList] at hitem
  obtain ⟨before, hbefore, rfl⟩ := h.exists_settled hitem
  obtain ⟨e, he⟩ := h.exists_emission hbefore
  rw [(h.bytes_write hbefore he).1, (before.write_frame _).2.1]

/-- Every item of the assembly is at the sum of the sizes before it. -/
theorem offset_item {item : Item} (hitem : a.items[index]? = some item) :
    item.offset = startOf a.items.toList index := by
  obtain ⟨before, hbefore, rfl⟩ := h.exists_settled hitem
  rw [(before.write_frame _).2.2, h.offset_eq hbefore, startOf_congr h.map_size]

/-- The linked assembly is what linking promises. -/
theorem resolved (hsize : a.codeSize < 2 ^ 31) : a.Resolved emissions := by
  refine ⟨h.length_items, Assembly.length_bytes h.length_bytes, ?_, ?_⟩
  · intro index item hitem
    have hlist : a.items.toList[index]? = some item := by rw [Array.getElem?_toList, hitem]
    refine ⟨h.offset_item hitem, h.length_bytes item (List.mem_of_getElem? hlist), ?_⟩
    rw [h.offset_item hitem]
    exact bytes_at_startOf h.length_bytes hlist
  · intro index item e hitem he
    obtain ⟨before, hbefore, rfl⟩ := h.exists_settled hitem
    rw [(before.write_frame _).2.2, (h.bytes_write hbefore he).2]
    cases e with
    | instr | raw | label => rfl
    | jump cond target =>
        obtain ⟨j, destination, hej, hj, htarget⟩ := h.exists_label he
        have hjump := h.jumpsTo hbefore he htarget (h.near (h.codeSize_eq ▸ hsize) hbefore hj)
        exact ⟨j, destination.offset, hej, by rw [h.offset?_eq, hj]; rfl,
          Item.jumpBytes_of_jumpsTo (h.size_jump hbefore he) hjump⟩

end Linked

/-- The items of emissions miss a label exactly if a jump names a label that is unbound. -/
theorem findSome?_missing_item
    (h : (emissions.map Emission.item).findSome? (Item.missing? bound) = some target) :
    target ∈ emissions.filterMap Emission.named? ∧ target ∉ bound := by
  obtain ⟨item, hitem, hmissing⟩ := List.exists_of_findSome?_eq_some h
  obtain ⟨e, he, rfl⟩ := List.mem_map.mp hitem
  rw [missing?_item, Option.filter_eq_some_iff, decide_eq_true_eq] at hmissing
  exact ⟨List.mem_filterMap.mpr ⟨e, he, hmissing.1⟩, hmissing.2⟩

/-- The items of emissions miss no label exactly if every label that a jump names is bound. -/
theorem findSome?_missing_item_eq_none_iff :
    (emissions.map Emission.item).findSome? (Item.missing? bound) = none ↔
      ∀ target ∈ emissions.filterMap Emission.named?, target ∈ bound := by
  rw [List.findSome?_eq_none_iff]
  simp only [List.mem_map, forall_exists_index, and_imp, forall_apply_eq_imp_iff₂, missing?_item,
    Option.filter_eq_none_iff, decide_eq_true_eq, not_not, List.mem_filterMap]
  exact ⟨fun h target e he hnamed => h e he target hnamed,
    fun h e he target hnamed => h target e he hnamed⟩

/-- Linking distinct labels leads to what relaxation leads to, with the jumps written. -/
theorem link_ofEmissions (hnodup : (emissions.filterMap Emission.bound?).Nodup) :
    (∀ settled e, relax (emissions.map Emission.item) = (settled, .error e) →
      (Assembly.ofEmissions emissions).link = (⟨settled.toArray⟩, .error e)) ∧
    (∀ settled total, relax (emissions.map Emission.item) = (settled, .ok total) →
      (Assembly.ofEmissions emissions).link =
        (⟨(settled.map (Item.write (labelOffsets settled))).toArray⟩, .ok total)) := by
  have hnone : repeatedLabel? {} (emissions.map Emission.item) = none := by
    rw [repeatedLabel?_eq_none_iff, boundLabels_map_item]
    exact ⟨hnodup, fun id _ => Std.HashSet.not_mem_empty⟩
  simp only [Assembly.link, items_ofEmissions, hnone]
  exact ⟨fun settled e h => by rw [h], fun settled total h => by rw [h]⟩

/-- A label bound twice is reported. -/
theorem link_of_not_nodup (hdup : ¬ (emissions.filterMap Emission.bound?).Nodup) :
    ∃ id, 2 ≤ (emissions.filterMap Emission.bound?).count id ∧
      (Assembly.ofEmissions emissions).link.2 = .error (.duplicateLabel id) := by
  have hlabels := boundLabels_map_item emissions
  cases hfound : repeatedLabel? {} (emissions.map Emission.item) with
  | none =>
      rw [repeatedLabel?_eq_none_iff, hlabels] at hfound
      exact absurd hfound.1 hdup
  | some id =>
      refine ⟨id, ?_, by simp only [Assembly.link, items_ofEmissions, hfound]⟩
      rcases count_of_repeatedLabel? hfound with ⟨hseen, -⟩ | hcount
      · exact absurd hseen Std.HashSet.not_mem_empty
      · rw [hlabels] at hcount
        exact hcount

/-- With labels bound once, a jump to an unbound label is reported. -/
theorem link_of_unbound (hnodup : (emissions.filterMap Emission.bound?).Nodup)
    (hfree : ∃ target ∈ emissions.filterMap Emission.named?,
      target ∉ emissions.filterMap Emission.bound?) :
    ∃ target ∈ emissions.filterMap Emission.named?,
      target ∉ emissions.filterMap Emission.bound? ∧
        (Assembly.ofEmissions emissions).link.2 = .error (.undefinedLabel target) := by
  have hrelax := (relax_snd (emissions.map Emission.item)).1
  rw [boundLabels_map_item] at hrelax
  cases hfirst : (emissions.map Emission.item).findSome?
      (Item.missing? (emissions.filterMap Emission.bound?)) with
  | none =>
      obtain ⟨target, hnamed, hnot⟩ := hfree
      exact absurd (findSome?_missing_item_eq_none_iff.mp hfirst target hnamed) hnot
  | some target =>
      obtain ⟨hnamed, hnot⟩ := findSome?_missing_item hfirst
      refine ⟨target, hnamed, hnot, ?_⟩
      rw [(link_ofEmissions hnodup).1 _ _ (Prod.ext rfl (hrelax target hfirst))]

/-- With labels bound once and every label that a jump names among them, linking succeeds and leaves
settled items with their jumps written. Its result is the size of the code. -/
theorem link_of_bound (hnodup : (emissions.filterMap Emission.bound?).Nodup)
    (hbound : ∀ target ∈ emissions.filterMap Emission.named?,
      target ∈ emissions.filterMap Emission.bound?) :
    (Assembly.ofEmissions emissions).link.2 =
        .ok (Assembly.ofEmissions emissions).link.1.codeSize ∧
      ∃ settled, Linked emissions settled (Assembly.ofEmissions emissions).link.1 := by
  have hlabels := boundLabels_map_item emissions
  have hrelax := (relax_snd (emissions.map Emission.item)).2
  rw [hlabels] at hrelax
  obtain ⟨total, htotal⟩ := hrelax (findSome?_missing_item_eq_none_iff.mpr hbound)
  have hsettled : relax (emissions.map Emission.item) =
      ((relax (emissions.map Emission.item)).1, .ok total) := Prod.ext rfl htotal
  have hgrown := relax_grown (emissions.map Emission.item)
  obtain ⟨hlaid, hsize, hreach⟩ := relax_settled hsettled
  have hlinked : Linked emissions (relax (emissions.map Emission.item)).1
      (Assembly.ofEmissions emissions).link.1 := by
    refine ⟨⟨hgrown, hlaid, hreach, ?_, ?_⟩, by rw [(link_ofEmissions hnodup).2 _ _ hsettled]⟩
    · rw [boundLabels_of_grown hgrown, hlabels]
      exact hnodup
    · rw [boundLabels_of_grown hgrown, hlabels]
      exact hbound
  refine ⟨?_, _, hlinked⟩
  rw [hlinked.codeSize_eq, ← hsize, (link_ofEmissions hnodup).2 _ _ hsettled]

/-- Linking that succeeds leaves settled items with their jumps written, and its result is the size
of the code. -/
theorem linked_of_link {total : Nat} (h : (Assembly.ofEmissions emissions).link.2 = .ok total) :
    total = (Assembly.ofEmissions emissions).link.1.codeSize ∧
      ∃ settled, Linked emissions settled (Assembly.ofEmissions emissions).link.1 := by
  have hnodup : (emissions.filterMap Emission.bound?).Nodup := by
    by_contra hdup
    obtain ⟨id, -, herror⟩ := link_of_not_nodup hdup
    rw [herror] at h
    cases h
  have hbound : ∀ target ∈ emissions.filterMap Emission.named?,
      target ∈ emissions.filterMap Emission.bound? := by
    intro target hnamed
    by_contra hfree
    obtain ⟨_, -, -, herror⟩ := link_of_unbound hnodup ⟨target, hnamed, hfree⟩
    rw [herror] at h
    cases h
  obtain ⟨hsize, hlinked⟩ := link_of_bound hnodup hbound
  exact ⟨Except.ok.inj (h.symm.trans hsize), hlinked⟩

/-- **Linking resolves every jump.** A label bound twice is an error; otherwise a jump to an unbound
label is one; otherwise linking succeeds. Its result is then the size of the code, which is as long
as that, and as long as it is shorter than `2 ^ 31` bytes the distance of every jump fits its form
and leads to its label. -/
theorem link_resolves (emissions : List Emission) :
    let labels := emissions.filterMap Emission.bound?
    let targets := emissions.filterMap Emission.named?
    let linked := (Assembly.ofEmissions emissions).link.1
    let result := (Assembly.ofEmissions emissions).link.2
    (¬ labels.Nodup → ∃ id, 2 ≤ labels.count id ∧ result = .error (.duplicateLabel id)) ∧
      (labels.Nodup → (∃ target ∈ targets, target ∉ labels) →
        ∃ target ∈ targets, target ∉ labels ∧ result = .error (.undefinedLabel target)) ∧
      (labels.Nodup → (∀ target ∈ targets, target ∈ labels) → ∃ total, result = .ok total ∧
        total = linked.codeSize ∧ total = linked.bytes.length ∧
        (total < 2 ^ 31 → linked.Resolved emissions)) := by
  refine ⟨link_of_not_nodup, link_of_unbound, fun hnodup hbound => ?_⟩
  obtain ⟨hok, settled, hlinked⟩ := link_of_bound hnodup hbound
  exact ⟨_, hok, rfl, (Assembly.length_bytes hlinked.length_bytes).symm, hlinked.resolved⟩

/-- A conditional jump over as many bytes as just do not fit its short form. -/
def jumpOver128 : List Emission :=
  .jump (some .e) 0 :: List.replicate 128 (.raw [0x90] (by decide)) ++ [.label 0]

/-- Linking resolves the jump that just misses its short form, in six bytes. -/
theorem link_resolves_jumpOver128 :
    (Assembly.ofEmissions jumpOver128).link.2 = .ok 134 ∧
      (Assembly.ofEmissions jumpOver128).link.1.codeSize = 134 ∧
      (Assembly.ofEmissions jumpOver128).link.1.bytes.length = 134 ∧
      (Assembly.ofEmissions jumpOver128).link.1.Resolved jumpOver128 := by
  have hok : (Assembly.ofEmissions jumpOver128).link.2 = .ok 134 := by decide +kernel
  obtain ⟨total, htotal, hsize, hlength, hresolved⟩ :=
    (link_resolves jumpOver128).2.2 (by decide +kernel) (by decide +kernel)
  obtain rfl := Except.ok.inj (hok.symm.trans htotal)
  exact ⟨hok, hsize.symm, hlength.symm, hresolved (by decide)⟩

end SlotJit.X64

import SlotJit.Proofs.X64.Relaxation

/-!
# Linking forgets its history

An assembly may be linked at any time, also while labels are still missing, and be added to
afterwards. A link widens jumps even if it fails in the end, and a jump that was widened stays long.
None of this shows in the code that the last link leaves.

The reason is that no link widens a jump without need. A choice of forms fits if every jump that it
has short reaches its label (`Fits`). The items of an assembly are never larger than under such a
choice, so no two of them are further apart; and a jump that is out of reach at the smaller distance
is out of reach at the larger one. So what was widened at any time is long in every choice that fits
(`Needed`), whatever is added later. The last link ends with a choice that fits, which is then the
least one, and the least choice determines the code.

## Main results

* `needed_relax`: relaxation widens only jumps that are long in every choice of forms that fits.
* `link_forgets_history`: the last link leads to what linking once leads to.
-/

namespace SlotJit.X64

/-! ### Choices of forms -/

/-- The item of an emission, with a jump in the form asked for. -/
def Emission.inForm (isLong : Bool) : Emission → Item
  | jump cond target => { form := .jump cond target, size := if isLong then longSize cond else 2 }
  | e => e.item

/-- The items of emissions, with every jump in the form that is chosen for its index. -/
def chosen (emissions : List Emission) (long : Nat → Bool) : List Item :=
  emissions.mapIdx fun index e => e.inForm (long index)

/-- Every jump that is chosen to be short reaches its label. -/
def Fits (emissions : List Emission) (long : Nat → Bool) : Prop :=
  ∀ (i j : Nat) (cond : Option Cond) (target : Nat), emissions[i]? = some (.jump cond target) →
    emissions[j]? = some (.label target) → long i = false →
    fitsShort ((startOf (chosen emissions long) j : Int) -
      (startOf (chosen emissions long) i + 2 : Nat)) = true

/-- Whether an item is a jump in its long form. -/
def Item.isLongJump (item : Item) : Bool :=
  match item.form with
  | .jump .. => item.size != 2
  | _ => false

/-- Whether the item at an index is a jump in its long form. -/
def longAt (items : List Item) (index : Nat) : Bool := items[index]?.any Item.isLongJump

/-- An item of a program with its forms chosen. -/
theorem getElem?_chosen (emissions : List Emission) (long : Nat → Bool) (index : Nat) :
    (chosen emissions long)[index]? = emissions[index]?.map (Emission.inForm (long index)) := by
  rw [chosen, List.getElem?_mapIdx]

/-- An item that is a long jump. -/
theorem longAt_eq_true_iff {items : List Item} {index : Nat} :
    longAt items index = true ↔ ∃ item, items[index]? = some item ∧ item.isLongJump = true := by
  rw [longAt, Option.any_eq_true]

/-- The form of an item that is there. -/
theorem longAt_of_getElem? {items : List Item} {index : Nat} {item : Item}
    (h : items[index]? = some item) : longAt items index = item.isLongJump := by
  rw [longAt, h, Option.any_some]

/-- Whether jumps are long, from the list of forms. -/
theorem longAt_eq (items : List Item) (index : Nat) :
    longAt items index = (items.map Item.isLongJump)[index]?.any id := by
  rw [longAt, List.getElem?_map, Option.any_map]
  rfl

/-- Writing labels leaves jumps as long as they are. -/
theorem longAt_map_write (offsets : LabelOffsets) (items : List Item) :
    longAt (items.map (Item.write offsets)) = longAt items := by
  have hwrite : ∀ item : Item, (item.write offsets).isLongJump = item.isLongJump := by
    intro item
    obtain ⟨hform, hsize, -⟩ := item.write_frame offsets
    rw [Item.isLongJump, hform, hsize, Item.isLongJump]
  funext index
  rw [longAt_eq, longAt_eq, List.map_map]
  exact congrArg (fun f => (items.map f)[index]?.any id) (funext hwrite)

/-- Only the forms of jumps are chosen. -/
theorem chosen_congr {emissions : List Emission} {long long' : Nat → Bool}
    (h : ∀ (i : Nat) (cond : Option Cond) (target : Nat),
      emissions[i]? = some (.jump cond target) → long i = long' i) :
    chosen emissions long = chosen emissions long' := by
  refine List.ext_getElem? fun i => ?_
  rw [getElem?_chosen, getElem?_chosen]
  rcases he : emissions[i]? with _ | e
  · rfl
  · cases e with
    | jump cond target => rw [h i cond target he]
    | instr | raw | label => rfl

/-- A jump is no smaller in its long form. -/
theorem Emission.size_inForm_le {isLong isLong' : Bool} (h : isLong = true → isLong' = true)
    (e : Emission) : (e.inForm isLong).size ≤ (e.inForm isLong').size := by
  cases e with
  | instr | raw | label => exact Nat.le_refl _
  | jump cond target =>
      cases isLong with
      | true => rw [h rfl]
      | false => cases isLong' <;> cases cond <;> simp [inForm, longSize]

/-- The form of a jump does not change what it is. -/
theorem Emission.form_inForm (isLong : Bool) (e : Emission) :
    (e.inForm isLong).form = e.item.form := by
  cases e <;> rfl

/-! ### Items that stand for emissions -/

/-- An item without the bytes that linking wrote to it. -/
def Item.unwritten (item : Item) : Item :=
  match item.form with
  | .jump .. => { item with written := [] }
  | _ => item

/-- An item stands for an emission: it is the emitted one in some place, and a jump may be in either
form and have bytes of an earlier link. -/
def Emission.StandsAs (e : Emission) (item : Item) : Prop :=
  item.unwritten = { e.inForm item.isLongJump with offset := item.offset }

/-- Items stand for emissions, in order. -/
def StandFor (emissions : List Emission) (items : List Item) : Prop :=
  List.Forall₂ Emission.StandsAs emissions items

/-- Forgetting what was written keeps the kind of an item. -/
theorem Item.form_unwritten (item : Item) : item.unwritten.form = item.form := by
  unfold unwritten
  split <;> rfl

/-- Forgetting what was written keeps the size of an item. -/
theorem Item.size_unwritten (item : Item) : item.unwritten.size = item.size := by
  unfold unwritten
  split <;> rfl

/-- An item as it is emitted. -/
theorem Emission.standsAs_item (e : Emission) : e.StandsAs e.item := by
  cases e <;> rfl

namespace Emission.StandsAs

variable {e : Emission} {a b : Item}

/-- An emission stands as an item of its kind. -/
theorem form (h : e.StandsAs a) : a.form = e.item.form := by
  rw [← a.form_unwritten, h]
  exact e.form_inForm _

/-- An emission has the size of its item. -/
theorem size (h : e.StandsAs a) : a.size = (e.inForm a.isLongJump).size := by
  rw [← a.size_unwritten, h]

/-- A jump stands for a jump. -/
theorem eq_jump (h : e.StandsAs a) {cond : Option Cond} {label : Nat}
    (hform : a.form = .jump cond label) : e = .jump cond label := by
  have hitem := h.form.symm.trans hform
  cases e with
  | jump => cases hitem; rfl
  | instr | raw | label => cases hitem

/-- A label stands for a label. -/
theorem eq_label (h : e.StandsAs a) {id : Nat} (hform : a.form = .label id) : e = .label id := by
  have hitem := h.form.symm.trans hform
  cases e with
  | label => cases hitem; rfl
  | instr | raw | jump => cases hitem

/-- Relaxation changes nothing but the form of a jump. -/
theorem grown (h : e.StandsAs a) (hgrown : a.Grown b) : e.StandsAs b := by
  have hform := h.form
  have hsize := h.size
  rcases a with ⟨form, size, offset, written⟩
  rcases b with ⟨form', size', offset', written'⟩
  obtain ⟨rfl, rfl, hsize'⟩ := hgrown
  cases e with
  | jump cond target =>
      cases hform
      rcases hsize' with rfl | ⟨_, _, heq, -, rfl⟩
      · simp only [StandsAs, Item.unwritten, inForm, Item.mk.injEq, true_and, and_true]
        exact hsize
      · cases heq
        simp [StandsAs, Item.unwritten, inForm, Item.isLongJump, longSize_ne_two]
  | instr | raw | label =>
      cases hform
      rcases hsize' with rfl | ⟨_, _, heq, -⟩
      · simpa [StandsAs, Item.unwritten, inForm] using h
      · cases heq

/-- Writing a jump changes nothing but its bytes. -/
theorem write (h : e.StandsAs a) (offsets : LabelOffsets) : e.StandsAs (a.write offsets) := by
  unfold Item.write
  split
  · rename_i hform
    simpa only [StandsAs, Item.unwritten, Item.isLongJump, hform] using h
  · exact h

end Emission.StandsAs

namespace StandFor

variable {emissions : List Emission} {items items' : List Item}

/-- Items that grow go on standing for the emissions. -/
theorem grown (h : StandFor emissions items) (hgrown : List.Forall₂ Item.Grown items items') :
    StandFor emissions items' := by
  induction h generalizing items' with
  | nil =>
      cases hgrown
      exact .nil
  | cons hfirst _ ih =>
      cases hgrown with
      | cons hab hrest => exact .cons (hfirst.grown hab) (ih hrest)

/-- Items that are written go on standing for the emissions. -/
theorem write (h : StandFor emissions items) (offsets : LabelOffsets) :
    StandFor emissions (items.map (Item.write offsets)) :=
  List.forall₂_map_right_iff.mpr (h.imp fun _ _ hitem => hitem.write offsets)

/-- The emission that an item stands for. -/
theorem exists_emission (h : StandFor emissions items) {i : Nat} {item : Item}
    (hitem : items[i]? = some item) : ∃ e, emissions[i]? = some e ∧ e.StandsAs item := by
  obtain ⟨hlength, hall⟩ := List.forall₂_iff_get.mp h
  obtain ⟨hlt, rfl⟩ := List.getElem?_eq_some_iff.mp hitem
  exact ⟨_, List.getElem?_eq_getElem (hlength ▸ hlt), hall i (hlength ▸ hlt) hlt⟩

/-- The item that stands for an emission. -/
theorem exists_item (h : StandFor emissions items) {i : Nat} {e : Emission}
    (he : emissions[i]? = some e) : ∃ item, items[i]? = some item ∧ e.StandsAs item := by
  obtain ⟨hlength, hall⟩ := List.forall₂_iff_get.mp h
  obtain ⟨hlt, rfl⟩ := List.getElem?_eq_some_iff.mp he
  exact ⟨_, List.getElem?_eq_getElem (hlength ▸ hlt), hall i hlt (hlength ▸ hlt)⟩

/-- The labels are those of the emissions. -/
theorem boundLabels_eq (h : StandFor emissions items) :
    boundLabels items = emissions.filterMap Emission.bound? := by
  rw [← boundLabels_map_item]
  refine boundLabels_congr ?_
  rw [List.map_map]
  induction h with
  | nil => rfl
  | cons hfirst _ ih => rw [List.map_cons, List.map_cons, hfirst.form, ih, Function.comp_apply]

/-- Up to the bytes of jumps, items that are laid out are the emissions in the forms they have. -/
theorem layoutFrom_eq (h : StandFor emissions items) (offset : Nat) :
    (layoutFrom offset items).map Item.unwritten =
      layoutFrom offset (chosen emissions (longAt items)) := by
  have hget : ∀ i : Nat, (chosen emissions (longAt items))[i]? =
      items[i]?.map fun item : Item => { item.unwritten with offset := 0 } := by
    intro i
    rw [getElem?_chosen]
    rcases hitem : items[i]? with _ | item
    · rcases he : emissions[i]? with _ | e
      · rfl
      · obtain ⟨item, hitem', -⟩ := h.exists_item he
        cases hitem.symm.trans hitem'
    · obtain ⟨e, he, hstands⟩ := h.exists_emission hitem
      rw [he, Option.map_some, Option.map_some, longAt_of_getElem? hitem, hstands]
      cases e <;> rfl
  have hsizes : (chosen emissions (longAt items)).map Item.size = items.map Item.size := by
    refine List.ext_getElem? fun i => ?_
    rw [List.getElem?_map, List.getElem?_map, hget, Option.map_map]
    exact congrArg (fun f => items[i]?.map f) (funext Item.size_unwritten)
  refine List.ext_getElem? fun i => ?_
  rw [List.getElem?_map, getElem?_layoutFrom, getElem?_layoutFrom, hget, startOf_congr hsizes,
    Option.map_map, Option.map_map]
  refine congrArg (fun f => items[i]?.map f) (funext fun item => ?_)
  simp only [Function.comp_apply, Item.unwritten]
  split <;> rfl

end StandFor

/-! ### No jump is widened without need -/

/-- Jumps that are long in some items are long in every choice of forms that fits. -/
def Needed (emissions : List Emission) (items : List Item) : Prop :=
  ∀ long, Fits emissions long → ∀ i, longAt items i = true → long i = true

/-- Items that are nowhere larger are nowhere further apart. -/
theorem startOf_add_le {items items' : List Item}
    (hle : ∀ (k : Nat) (item : Item), items[k]? = some item →
      ∃ item', items'[k]? = some item' ∧ item.size ≤ item'.size)
    {i j : Nat} (hij : i ≤ j) (hj : j ≤ items.length) :
    startOf items j + startOf items' i ≤ startOf items' j + startOf items i := by
  induction j, hij using Nat.le_induction with
  | base => rw [Nat.add_comm]
  | succ j hij ih =>
      obtain ⟨item', hitem', hsize⟩ := hle j _ (List.getElem?_eq_getElem hj)
      have := ih (Nat.le_of_succ_le hj)
      rw [startOf_succ (List.getElem?_eq_getElem hj), startOf_succ hitem']
      omega

/-- A short jump that reaches some place reaches it in items that are nowhere larger. -/
theorem fitsShort_startOf {items items' : List Item}
    (hle : ∀ (k : Nat) (item : Item), items[k]? = some item →
      ∃ item', items'[k]? = some item' ∧ item.size ≤ item'.size)
    {i j : Nat} {item item' : Item} (hitem : items[i]? = some item)
    (hitem' : items'[i]? = some item') (hsize : item.size = 2) (hsize' : item'.size = 2)
    (hj : j ≤ items.length)
    (hfits : fitsShort ((startOf items' j : Int) - (startOf items' i + 2 : Nat)) = true) :
    fitsShort ((startOf items j : Int) - (startOf items i + 2 : Nat)) = true := by
  have hnext := startOf_succ hitem
  have hnext' := startOf_succ hitem'
  simp only [fitsShort, Bool.and_eq_true, decide_eq_true_eq] at hfits ⊢
  -- Ahead the distance counts from the end of the jump, and back it counts the jump as well.
  rcases Nat.lt_or_ge i j with hahead | hback
  · have hdistance := startOf_add_le hle (Nat.succ_le_of_lt hahead) hj
    have hmono := startOf_mono items (Nat.succ_le_of_lt hahead)
    rw [Nat.succ_eq_add_one] at hdistance hmono
    omega
  · have hdistance := startOf_add_le hle hback (List.getElem?_eq_some_iff.mp hitem).1.le
    have hmono := startOf_mono items hback
    omega

/-- What stands at an index after a pass was there before it, or was widened. -/
theorem exists_of_widenAll {offsets : LabelOffsets} {items : List Item} {i : Nat} {item' : Item}
    (h : (widenAll offsets items).1[i]? = some item') :
    ∃ item, items[i]? = some item ∧
      (item' = item ∨ ∃ grew, item.widen offsets = .ok (item', grew)) := by
  induction items generalizing i with
  | nil => cases h
  | cons first rest ih =>
      rw [widenAll] at h
      split at h
      · exact ⟨item', h, .inl rfl⟩
      · rename_i widened grew hwiden
        cases i with
        | zero =>
            cases h
            exact ⟨first, rfl, .inr ⟨grew, hwiden⟩⟩
        | succ i => exact ih h

section

variable {emissions all : List Emission} {items : List Item}

/-- A label that has an offset is that of an emission, and the offset is where its item starts. -/
theorem StandFor.exists_label (h : StandFor emissions items)
    (hnodup : (emissions.filterMap Emission.bound?).Nodup) {label target : Nat}
    (htarget : (labelOffsets (layoutFrom 0 items))[label]? = some target) :
    ∃ j, emissions[j]? = some (.label label) ∧ target = startOf items j ∧ j < items.length := by
  have hlaid := h.grown (grown_layoutFrom 0 items)
  have hbound : label ∈ boundLabels (layoutFrom 0 items) := by
    by_contra hfree
    cases htarget.symm.trans (labelOffsets_getElem?_eq_none_iff.mpr hfree)
  obtain ⟨item, hmem, hid⟩ := List.mem_filterMap.mp hbound
  obtain ⟨j, hj⟩ := List.getElem?_of_mem hmem
  have hform := Item.labelId?_eq_some.mp hid
  have hoffset := labelOffsets_getElem?_of_label (hlaid.boundLabels_eq.symm ▸ hnodup) hj hform
  obtain ⟨e, he, hstands⟩ := hlaid.exists_emission hj
  have hlt := (List.getElem?_eq_some_iff.mp hj).1
  rw [length_layoutFrom] at hlt
  refine ⟨j, ?_, ?_, hlt⟩
  · rw [he, hstands.eq_label hform]
  · rw [Option.some.inj (htarget.symm.trans hoffset), offset_of_layoutFrom hj,
      startOf_congr (map_layoutFrom Item.size (fun _ _ => rfl) 0 items)]

/-- A pass over the items of the first emissions widens only jumps that all of them need long. -/
theorem needed_pass (h : StandFor emissions items) (hpart : emissions <+: all)
    (hnodup : (all.filterMap Emission.bound?).Nodup) (hneeded : Needed all items) :
    Needed all (widenAll (labelOffsets (layoutFrom 0 items)) (layoutFrom 0 items)).1 := by
  intro long hfits i hlong
  have hget : ∀ {k : Nat} {e : Emission}, emissions[k]? = some e → all[k]? = some e := by
    intro k e he
    obtain ⟨later, rfl⟩ := hpart
    rw [List.getElem?_append_left (List.getElem?_eq_some_iff.mp he).1, he]
  have hsmaller : ∀ (k : Nat) (item : Item), items[k]? = some item →
      ∃ item', (chosen all long)[k]? = some item' ∧ item.size ≤ item'.size := by
    intro k item hitem
    obtain ⟨e, he, hstands⟩ := h.exists_emission hitem
    refine ⟨_, by rw [getElem?_chosen, hget he, Option.map_some], ?_⟩
    rw [hstands.size]
    exact e.size_inForm_le fun hlong => hneeded long hfits k (longAt_of_getElem? hitem ▸ hlong)
  obtain ⟨item', hitem', hisLong⟩ := longAt_eq_true_iff.mp hlong
  obtain ⟨laid, hlaid, hwidened⟩ := exists_of_widenAll hitem'
  have hoffset := offset_of_layoutFrom hlaid
  rw [startOf_congr (map_layoutFrom Item.size (fun _ _ => rfl) 0 items)] at hoffset
  rw [getElem?_layoutFrom, Option.map_eq_some_iff] at hlaid
  obtain ⟨item, hitem, rfl⟩ := hlaid
  have hkept : item' = { item with offset := 0 + startOf items i } → long i = true := by
    rintro rfl
    exact hneeded long hfits i (by rw [longAt_of_getElem? hitem]; exact hisLong)
  rcases hwidened with heq | ⟨grew, hwiden⟩
  · exact hkept heq
  · rcases Item.widen_cases hwiden with
      ⟨-, heq, -⟩ | ⟨-, cond, label, target, hform, hshort, htarget, hfar, -⟩
    · exact hkept heq
    · by_contra hnot
      obtain ⟨e, he, hstands⟩ := h.exists_emission hitem
      obtain rfl : e = .jump cond label := hstands.eq_jump hform
      obtain ⟨j, hj, rfl, hjlt⟩ := h.exists_label
        (hnodup.sublist (hpart.sublist.filterMap _)) htarget
      have hshort' : long i = false := Bool.not_eq_true _ ▸ hnot
      have hchosen : (chosen all long)[i]? = some (.jump cond label) := by
        rw [getElem?_chosen, hget he, Option.map_some, hshort']
        rfl
      have hnear := fitsShort_startOf hsmaller hitem hchosen hshort rfl (Nat.le_of_lt hjlt)
        (hfits i j cond label (hget he) (hget hj) hshort')
      rw [hoffset, hnear] at hfar
      cases hfar

/-- Relaxation widens only jumps that are long in every choice of forms that fits, also if it fails
and whatever is emitted later. -/
theorem needed_relax (h : StandFor emissions items) (hpart : emissions <+: all)
    (hnodup : (all.filterMap Emission.bound?).Nodup) (hneeded : Needed all items) :
    Needed all (relax items).1 := by
  fun_induction relax items with
  | case1 items laidOut widened e hwiden =>
      have hpass := needed_pass h hpart hnodup hneeded
      rwa [hwiden] at hpass
  | case2 items laidOut widened hwiden hfewer ih =>
      have hpass := needed_pass h hpart hnodup hneeded
      have hgrown := grown_trans (grown_layoutFrom 0 items)
        (grown_widenAll (labelOffsets (layoutFrom 0 items)) (layoutFrom 0 items))
      rw [hwiden] at hpass hgrown
      exact ih (h.grown hgrown) hpass
  | case3 items laidOut widened hwiden =>
      have hpass := needed_pass h hpart hnodup hneeded
      rwa [hwiden] at hpass

end

/-! ### The code of a choice -/

/-- The linked items of emissions, with every jump in the form that is chosen for its index. -/
def linkedIn (emissions : List Emission) (long : Nat → Bool) : List Item :=
  let laidOut := layoutFrom 0 (chosen emissions long)
  laidOut.map (Item.write (labelOffsets laidOut))

/-- What is written does not depend on what was. -/
theorem Item.write_unwritten (offsets : LabelOffsets) (item : Item) :
    item.unwritten.write offsets = item.write offsets := by
  rcases item with ⟨form, size, offset, written⟩
  cases form <;> rfl

/-- Recording a label does not depend on what was written. -/
theorem LabelOffsets.record_unwritten (offsets : LabelOffsets) (item : Item) :
    offsets.record item.unwritten = offsets.record item := by
  rcases item with ⟨form, size, offset, written⟩
  cases form <;> rfl

/-- Linking does not look at the bytes that were written before. -/
theorem map_write_unwritten (items : List Item) :
    (items.map Item.unwritten).map (Item.write (labelOffsets (items.map Item.unwritten))) =
      items.map (Item.write (labelOffsets items)) := by
  have hlabels : labelOffsets (items.map Item.unwritten) = labelOffsets items := by
    rw [labelOffsets, labelOffsets, List.foldl_map]
    exact congrArg (fun f => items.foldl f ({} : LabelOffsets))
      (funext fun offsets => funext fun item => offsets.record_unwritten item)
  rw [hlabels, List.map_map]
  exact List.map_congr_left fun item _ => item.write_unwritten _

/-- Only the last layout counts. -/
theorem layoutFrom_layoutFrom (offset offset' : Nat) (items : List Item) :
    layoutFrom offset (layoutFrom offset' items) = layoutFrom offset items := by
  induction items generalizing offset offset' with
  | nil => rfl
  | cons item rest ih => rw [layoutFrom, layoutFrom, layoutFrom, ih]

/-- The least choice of forms that fits. -/
structure Least (emissions : List Emission) (long : Nat → Bool) : Prop where
  fits : Fits emissions long
  least : ∀ long', Fits emissions long' → ∀ i, long i = true → long' i = true

/-- There is at most one least choice, but for the indices that have no jump. -/
theorem Least.linkedIn_eq {emissions : List Emission} {long long' : Nat → Bool}
    (h : Least emissions long) (h' : Least emissions long') :
    linkedIn emissions long = linkedIn emissions long' := by
  have hchosen : chosen emissions long = chosen emissions long' :=
    chosen_congr fun i _ _ _ => Bool.eq_iff_iff.mpr ⟨h.least _ h'.fits i, h'.least _ h.fits i⟩
  rw [linkedIn, linkedIn, hchosen]

section

variable {emissions : List Emission} {a : Assembly}

/-- Items that relaxation left stand in a choice of forms that fits. -/
theorem fits_of_settled {settled : List Item} (h : StandFor emissions settled)
    (hnodup : (emissions.filterMap Emission.bound?).Nodup) (hlaid : settled = layoutFrom 0 settled)
    (hreaches : ∀ item ∈ settled, item.Reaches (labelOffsets settled)) :
    Fits emissions (longAt settled) := by
  intro i j cond label hi hj hshort
  have hsizes : settled.map Item.size = (chosen emissions (longAt settled)).map Item.size := by
    have hsame := congrArg (List.map Item.size) (h.layoutFrom_eq 0)
    rw [map_layoutFrom Item.size (fun _ _ => rfl), List.map_map, ← hlaid] at hsame
    rw [← hsame]
    exact List.map_congr_left fun item _ => item.size_unwritten.symm
  obtain ⟨item, hitem, hstands⟩ := h.exists_item hi
  obtain ⟨destination, hdestination, hstands'⟩ := h.exists_item hj
  rw [longAt_of_getElem? hitem] at hshort
  have hsize : item.size = 2 := by
    rw [hstands.size, hshort]
    rfl
  obtain ⟨target, htarget, hfits⟩ :=
    hreaches item (List.mem_of_getElem? hitem) cond label hstands.form hsize
  have hoffset := labelOffsets_getElem?_of_label (h.boundLabels_eq.symm ▸ hnodup) hdestination
    hstands'.form
  rw [Option.some.inj (htarget.symm.trans hoffset)] at hfits
  rw [hlaid] at hitem hdestination
  rwa [offset_of_layoutFrom hitem, offset_of_layoutFrom hdestination, ← hlaid,
    startOf_congr hsizes, startOf_congr hsizes] at hfits

/-- Linking items that stand for emissions, of which no jump was widened without need, leads to the
code of the least choice of forms. -/
theorem StandFor.link_eq (h : StandFor emissions a.items.toList)
    (hneeded : Needed emissions a.items.toList)
    (hnodup : (emissions.filterMap Emission.bound?).Nodup)
    (hbound : ∀ target ∈ emissions.filterMap Emission.named?,
      target ∈ emissions.filterMap Emission.bound?) :
    Least emissions (longAt a.link.1.items.toList) ∧
      a.link.1.items.toList = linkedIn emissions (longAt a.link.1.items.toList) ∧
      a.link.2 = .ok a.link.1.codeSize := by
  have hrepeated : repeatedLabel? {} a.items.toList = none := by
    rw [repeatedLabel?_eq_none_iff, h.boundLabels_eq]
    exact ⟨hnodup, fun id _ => Std.HashSet.not_mem_empty⟩
  have hmissing : a.items.toList.findSome? (Item.missing? (boundLabels a.items.toList)) = none := by
    refine List.findSome?_eq_none_iff.mpr fun item hmem => ?_
    obtain ⟨i, hitem⟩ := List.getElem?_of_mem hmem
    obtain ⟨e, he, hstands⟩ := h.exists_emission hitem
    unfold Item.missing?
    split
    · rename_i cond label hform
      refine if_neg fun hfree => hfree.2 ?_
      rw [h.boundLabels_eq]
      refine hbound label (List.mem_filterMap.mpr ⟨e, List.mem_of_getElem? he, ?_⟩)
      rw [hstands.eq_jump hform, Emission.named?]
    · rfl
  obtain ⟨total, htotal⟩ := (relax_snd a.items.toList).2 hmissing
  have hrelax : relax a.items.toList = ((relax a.items.toList).1, .ok total) := Prod.ext rfl htotal
  have hsettled := h.grown (relax_grown a.items.toList)
  obtain ⟨⟨before, hbefore⟩, hsize, hreaches⟩ := relax_settled hrelax
  have hlaid : (relax a.items.toList).1 = layoutFrom 0 (relax a.items.toList).1 := by
    rw [hbefore, layoutFrom_layoutFrom]
  have hlink : a.link = (⟨((relax a.items.toList).1.map
      (Item.write (labelOffsets (relax a.items.toList).1))).toArray⟩, .ok total) := by
    unfold Assembly.link
    simp only [hrepeated]
    rw [hrelax]
  rw [hlink]
  simp only [longAt_map_write]
  refine ⟨⟨fits_of_settled hsettled hnodup hlaid hreaches,
    needed_relax h List.prefix_rfl hnodup hneeded⟩, ?_, ?_⟩
  · simp only [linkedIn, ← hsettled.layoutFrom_eq 0, ← hlaid, map_write_unwritten]
  · rw [hsize, Assembly.codeSize_eq_sum, List.map_map]
    exact congrArg (fun sizes => Except.ok (List.sum sizes))
      (List.map_congr_left fun item _ => (item.write_frame _).2.1.symm)

end

/-! ### Histories -/

/-- What can be done with an assembly. -/
inductive Event where
  | emit (e : Emission)
  | link

/-- The emission of an event. -/
def Event.emission? : Event → Option Emission
  | emit e => some e
  | link => none

/-- What is emitted in a history. -/
def emitted (events : List Event) : List Emission := events.filterMap Event.emission?

namespace Assembly

/-- The assembly after an event. A link that fails keeps the jumps that it has widened. -/
def act (a : Assembly) : Event → Assembly
  | .emit e => a.add e.item
  | .link => a.link.1

/-- The assembly after a history. -/
def ofEvents (events : List Event) : Assembly := events.foldl act {}

/-- One more event. -/
theorem ofEvents_concat (events : List Event) (event : Event) :
    ofEvents (events ++ [event]) = (ofEvents events).act event := by
  simp [ofEvents]

/-- Events that only emit. -/
theorem ofEvents_map_emit (emissions : List Emission) :
    ofEvents (emissions.map .emit) = ofEmissions emissions := by
  rw [ofEvents, List.foldl_map]
  rfl

end Assembly

/-- Events that only emit have their emissions. -/
@[simp] theorem emitted_map_emit (emissions : List Emission) :
    emitted (emissions.map .emit) = emissions := by
  rw [emitted, List.filterMap_map]
  exact List.filterMap_some

/-- A link leaves items that stand for the emissions it found. -/
theorem StandFor.link {emissions : List Emission} {a : Assembly}
    (h : StandFor emissions a.items.toList) : StandFor emissions a.link.1.items.toList := by
  have hrelax := h.grown (relax_grown a.items.toList)
  unfold Assembly.link
  dsimp only
  split
  · exact h
  · split
    · rename_i items e heq
      rw [heq] at hrelax
      exact hrelax
    · rename_i items heq
      rw [heq] at hrelax
      exact hrelax.write _

/-- A link widens only jumps that are long in every choice of forms that fits. -/
theorem Needed.link {emissions all : List Emission} {a : Assembly}
    (h : StandFor emissions a.items.toList) (hpart : emissions <+: all)
    (hnodup : (all.filterMap Emission.bound?).Nodup) (hneeded : Needed all a.items.toList) :
    Needed all a.link.1.items.toList := by
  have hrelax := needed_relax h hpart hnodup hneeded
  unfold Assembly.link
  dsimp only
  split
  · exact hneeded
  · split
    · rename_i items e heq
      rw [heq] at hrelax
      exact hrelax
    · rename_i items heq
      rw [heq] at hrelax
      rw [Needed, longAt_map_write]
      exact hrelax

/-- A jump is emitted in its short form. -/
theorem longAt_concat_item (items : List Item) (e : Emission) (i : Nat) :
    longAt (items ++ [e.item]) i = longAt items i := by
  have hshort : e.item.isLongJump = false := by cases e <;> rfl
  rcases Nat.lt_trichotomy i items.length with hlt | rfl | hgt
  · rw [longAt, List.getElem?_append_left hlt, longAt]
  · rw [longAt, List.getElem?_concat_length, Option.any_some, hshort, longAt,
      List.getElem?_eq_none (Nat.le_refl _), Option.any_none]
  · rw [longAt, List.getElem?_eq_none (by simpa using hgt), longAt,
      List.getElem?_eq_none (Nat.le_of_lt hgt)]

/-- What one more event emits. -/
theorem emitted_concat (events : List Event) (event : Event) :
    emitted (events ++ [event]) = emitted events ++ event.emission?.toList := by
  rw [emitted, List.filterMap_append]
  cases event <;> rfl

/-- After any history the items stand for what was emitted. -/
theorem standFor_ofEvents (events : List Event) :
    StandFor (emitted events) (Assembly.ofEvents events).items.toList := by
  induction events using List.reverseRecOn with
  | nil => exact .nil
  | append_singleton events event ih =>
      rw [Assembly.ofEvents_concat, emitted_concat]
      cases event with
      | link =>
          rw [Event.emission?, Option.toList_none, List.append_nil]
          exact ih.link
      | emit e =>
          rw [Assembly.act, Assembly.add, Array.toList_push]
          exact List.rel_append ih (.cons e.standsAs_item .nil)

/-- After any history no jump was widened without need, whatever is emitted later. -/
theorem needed_ofEvents {events : List Event} {all : List Emission}
    (hpart : emitted events <+: all) (hnodup : (all.filterMap Emission.bound?).Nodup) :
    Needed all (Assembly.ofEvents events).items.toList := by
  induction events using List.reverseRecOn with
  | nil => exact fun long _ i hlong => nomatch hlong
  | append_singleton events event ih =>
      rw [emitted_concat] at hpart
      have hbefore := (List.prefix_append _ _).trans hpart
      rw [Assembly.ofEvents_concat]
      cases event with
      | link => exact (ih hbefore).link (standFor_ofEvents events) hbefore hnodup
      | emit e =>
          rw [Assembly.act, Assembly.add, Array.toList_push]
          intro long hfits i hlong
          exact ih hbefore long hfits i (longAt_concat_item _ e i ▸ hlong)

/-- What a link that succeeds has found: no label is bound twice, and relaxation succeeds. -/
theorem relax_of_link {emissions : List Emission} {a : Assembly}
    (h : StandFor emissions a.items.toList) {total : Nat} (hlink : a.link.2 = .ok total) :
    (emissions.filterMap Emission.bound?).Nodup ∧ (relax a.items.toList).2 = .ok total := by
  unfold Assembly.link at hlink
  dsimp only at hlink
  split at hlink
  · cases hlink
  · rename_i hrepeated
    rw [repeatedLabel?_eq_none_iff, h.boundLabels_eq] at hrepeated
    refine ⟨hrepeated.1, ?_⟩
    split at hlink
    · cases hlink
    · rename_i heq
      rw [heq]
      exact hlink

/-- If relaxation succeeds, every label that was named is bound, also by a jump that is long by now:
if it were not, the choice that has this jump short and all others long would fit. -/
theorem StandFor.bound_of_relax {emissions : List Emission} {items : List Item}
    (h : StandFor emissions items) (hneeded : Needed emissions items) {total : Nat}
    (hrelax : (relax items).2 = .ok total) :
    ∀ target ∈ emissions.filterMap Emission.named?,
      target ∈ emissions.filterMap Emission.bound? := by
  intro target hnamed
  have hnone : items.findSome? (Item.missing? (boundLabels items)) = none := by
    refine Option.eq_none_iff_forall_ne_some.mpr fun label hlabel => ?_
    cases hrelax.symm.trans ((relax_snd items).1 label hlabel)
  rw [List.findSome?_eq_none_iff, h.boundLabels_eq] at hnone
  obtain ⟨e, hmem, hname⟩ := List.mem_filterMap.mp hnamed
  obtain ⟨i, he⟩ := List.getElem?_of_mem hmem
  obtain ⟨cond, rfl⟩ : ∃ cond, e = .jump cond target := by
    cases e with
    | jump cond label => exact ⟨cond, by cases hname; rfl⟩
    | instr | raw | label => cases hname
  obtain ⟨item, hitem, hstands⟩ := h.exists_item he
  by_contra hfree
  have hshort : item.isLongJump = false := by
    by_contra hlong
    have hfits : Fits emissions (fun k => decide (k ≠ i)) := by
      intro k j cond' target' hk hj hchosen
      obtain rfl : k = i := not_not.mp (of_decide_eq_false hchosen)
      cases he.symm.trans hk
      exact (hfree (List.mem_filterMap.mpr ⟨_, List.mem_of_getElem? hj, rfl⟩)).elim
    have hlongAt : longAt items i = true := by
      rw [longAt_of_getElem? hitem]
      exact Bool.not_eq_false _ ▸ hlong
    exact of_decide_eq_true (hneeded _ hfits i hlongAt) rfl
  have hsize : item.size = 2 := by
    rw [hstands.size, hshort]
    rfl
  have hform : item.form = .jump cond target := hstands.form
  have hmissing := hnone item (List.mem_of_getElem? hitem)
  simp [Item.missing?, hform, hsize, hfree] at hmissing

/-- After any history of emissions that bind every label they name, and each once, a link leads to
the code of the least choice of forms. -/
theorem link_ofEvents (events : List Event)
    (hnodup : ((emitted events).filterMap Emission.bound?).Nodup)
    (hbound : ∀ target ∈ (emitted events).filterMap Emission.named?,
      target ∈ (emitted events).filterMap Emission.bound?) :
    let linked := (Assembly.ofEvents events).link.1
    Least (emitted events) (longAt linked.items.toList) ∧
      linked.items.toList = linkedIn (emitted events) (longAt linked.items.toList) ∧
      (Assembly.ofEvents events).link.2 = .ok linked.codeSize :=
  (standFor_ofEvents events).link_eq (needed_ofEvents List.prefix_rfl hnodup) hnodup hbound

/-- Histories that emit the same lead to the same code. -/
theorem link_ofEvents_congr {events events' : List Event} (hsame : emitted events' = emitted events)
    (hnodup : ((emitted events).filterMap Emission.bound?).Nodup)
    (hbound : ∀ target ∈ (emitted events).filterMap Emission.named?,
      target ∈ (emitted events).filterMap Emission.bound?) :
    (Assembly.ofEvents events').link = (Assembly.ofEvents events).link := by
  obtain ⟨hleast, hitems, hsize⟩ := link_ofEvents events hnodup hbound
  obtain ⟨hleast', hitems', hsize'⟩ := link_ofEvents events' (hsame ▸ hnodup) (hsame ▸ hbound)
  rw [hsame] at hleast' hitems'
  have hlinked : (Assembly.ofEvents events').link.1 = (Assembly.ofEvents events).link.1 := by
    refine congrArg Assembly.mk (Array.toList_inj.mp ?_)
    rw [hitems, hitems', hleast'.linkedIn_eq hleast]
  exact Prod.ext hlinked (by rw [hsize, hsize', hlinked])

/-- **Linking forgets its history.** Let an assembly be linked at any time while it is emitted to,
with success or not. If it links in the end, the result is the one of linking the same emissions
once, and linking it again changes nothing. The jumps that are long in it are a choice of forms that
fits, and are long in every choice that fits. -/
theorem link_forgets_history (events : List Event) {total : Nat}
    (h : (Assembly.ofEvents events).link.2 = .ok total) :
    let linked := (Assembly.ofEvents events).link.1
    (Assembly.ofEvents events).link = (Assembly.ofEmissions (emitted events)).link ∧
      linked.link = (linked, .ok total) ∧
      Fits (emitted events) (longAt linked.items.toList) ∧
      ∀ long, Fits (emitted events) long → ∀ i, longAt linked.items.toList i = true →
        long i = true := by
  intro linked
  obtain ⟨hnodup, hrelax⟩ := relax_of_link (standFor_ofEvents events) h
  have hbound := (standFor_ofEvents events).bound_of_relax
    (needed_ofEvents List.prefix_rfl hnodup) hrelax
  have hleast := (link_ofEvents events hnodup hbound).1
  refine ⟨?_, ?_, hleast.fits, hleast.least⟩
  · rw [← Assembly.ofEvents_map_emit]
    exact (link_ofEvents_congr (emitted_map_emit _) hnodup hbound).symm
  · have hagain : (Assembly.ofEvents (events ++ [.link])).link = (Assembly.ofEvents events).link :=
      link_ofEvents_congr (by simp [emitted, Event.emission?]) hnodup hbound
    rw [Assembly.ofEvents_concat] at hagain
    exact hagain.trans (Prod.ext rfl h)

/-- A jump that just misses its short form, linked before its label is bound, then linked for good,
and then followed by a jump back. -/
def linkedEarly : List Event :=
  .emit (.jump (some .e) 0) :: .link :: List.replicate 64 (.emit (.instr (.jmpReg .rax))) ++
    [.emit (.label 0), .link, .emit (.jump none 0)]

/-- The first link fails and the second one widens the jump, and neither shows in the end. -/
theorem link_forgets_history_linkedEarly :
    (Assembly.ofEvents (linkedEarly.take 1)).link.2 = .error (.undefinedLabel 0) ∧
      (Assembly.ofEvents linkedEarly).link.2 = .ok 136 ∧
      (Assembly.ofEvents linkedEarly).link = (Assembly.ofEmissions (emitted linkedEarly)).link := by
  have h : (Assembly.ofEvents linkedEarly).link.2 = .ok 136 := by decide +kernel
  exact ⟨by decide +kernel, h, (link_forgets_history linkedEarly h).1⟩

end SlotJit.X64

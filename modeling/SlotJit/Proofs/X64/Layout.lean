import Mathlib
import SlotJit.X64.Assembly

/-!
# Layout and labels of an assembly

Facts about items laid out one after the other, stated without the order in which an assembly is
linked: where an item starts, where its bytes stand in the code, and where its labels are.

`startOf items i` is the sum of the sizes of the items before the `i`-th. A layout gives every item
its start (`getElem?_layoutFrom`), the table of label offsets gives a label the start of the item
that binds it (`labelOffsets_getElem?_of_label`), and the bytes of an item stand in the code from
its start on (`bytes_at_startOf`).
-/

namespace SlotJit.X64

variable {items : List Item} {item : Item} {id index : Nat}

/-! ### Starts -/

/-- Where an item starts when the items are laid out from zero: the sum of the sizes before it. -/
def startOf (items : List Item) (index : Nat) : Nat := ((items.take index).map Item.size).sum

/-- The first item starts at zero. -/
@[simp] theorem startOf_zero (items : List Item) : startOf items 0 = 0 := by
  simp [startOf]

/-- The others start behind it. -/
@[simp] theorem startOf_cons_succ (item : Item) (items : List Item) (index : Nat) :
    startOf (item :: items) (index + 1) = item.size + startOf items index := by
  simp [startOf]

/-- Starts depend on nothing but the sizes. -/
theorem startOf_congr {items' : List Item} (h : items.map Item.size = items'.map Item.size)
    (index : Nat) : startOf items index = startOf items' index := by
  rw [startOf, startOf, List.map_take, List.map_take, h]

/-- The start after an item. -/
theorem startOf_succ (h : items[index]? = some item) :
    startOf items (index + 1) = startOf items index + item.size := by
  rw [startOf, startOf, List.take_add_one, h, List.map_append, List.sum_append]
  simp

/-- Starts grow. -/
theorem startOf_mono (items : List Item) {i j : Nat} (hij : i ≤ j) :
    startOf items i ≤ startOf items j := by
  rw [startOf, startOf, ← Nat.add_sub_cancel' hij, List.take_add, List.map_append, List.sum_append]
  exact Nat.le_add_right _ _

/-- An item ends within the sum of all sizes. -/
theorem startOf_add_size_le (h : items[index]? = some item) :
    startOf items index + item.size ≤ (items.map Item.size).sum := by
  induction items generalizing index with
  | nil => simp at h
  | cons first rest ih =>
      cases index with
      | zero =>
          rw [List.getElem?_cons_zero, Option.some.injEq] at h
          subst h
          simp
      | succ index =>
          rw [List.getElem?_cons_succ] at h
          have := ih h
          rw [startOf_cons_succ, List.map_cons, List.sum_cons]
          omega

/-- A layout changes nothing but the offsets, and gives every item its start. -/
theorem getElem?_layoutFrom (offset : Nat) (items : List Item) (index : Nat) :
    (layoutFrom offset items)[index]? =
      items[index]?.map fun item => { item with offset := offset + startOf items index } := by
  induction items generalizing offset index with
  | nil => simp [layoutFrom]
  | cons item rest ih =>
      cases index with
      | zero => simp [layoutFrom]
      | succ index =>
          rw [layoutFrom, List.getElem?_cons_succ, ih, List.getElem?_cons_succ,
            startOf_cons_succ, Nat.add_assoc]

/-- Anything that does not look at offsets is the same after a layout. -/
theorem map_layoutFrom {α : Type} (f : Item → α)
    (hf : ∀ (item : Item) (offset : Nat), f { item with offset } = f item)
    (offset : Nat) (items : List Item) :
    (layoutFrom offset items).map f = items.map f := by
  induction items generalizing offset with
  | nil => rfl
  | cons item rest ih => rw [layoutFrom, List.map_cons, List.map_cons, hf, ih]

/-- The number of items is the same after a layout. -/
@[simp] theorem length_layoutFrom (offset : Nat) (items : List Item) :
    (layoutFrom offset items).length = items.length := by
  simpa using congrArg List.length (map_layoutFrom Item.size (fun _ _ => rfl) offset items)

/-- Whatever the items, in a layout every item has its own start as offset. -/
theorem offset_of_layoutFrom (h : (layoutFrom 0 items)[index]? = some item) :
    item.offset = startOf (layoutFrom 0 items) index := by
  rw [startOf_congr (map_layoutFrom Item.size (fun _ _ => rfl) 0 items)]
  rw [getElem?_layoutFrom, Option.map_eq_some_iff] at h
  obtain ⟨_, -, rfl⟩ := h
  simp

/-! ### Bytes -/

/-- The bytes of an item stand in the code from its start on. -/
theorem bytes_at_startOf (hlen : ∀ item ∈ items, item.bytes.length = item.size)
    (h : items[index]? = some item) :
    ((items.flatMap Item.bytes).drop (startOf items index)).take item.size = item.bytes := by
  induction items generalizing index with
  | nil => simp at h
  | cons first rest ih =>
      have hfirst := hlen first List.mem_cons_self
      cases index with
      | zero =>
          rw [List.getElem?_cons_zero, Option.some.injEq] at h
          subst h
          rw [startOf_zero, List.drop_zero, List.flatMap_cons, ← hfirst, List.take_left]
      | succ index =>
          rw [List.getElem?_cons_succ] at h
          rw [startOf_cons_succ, List.flatMap_cons, ← hfirst, List.drop_length_add_append]
          exact ih (fun item hitem => hlen item (List.mem_cons_of_mem _ hitem)) h

/-- The size of the code is the sum of the sizes. -/
theorem Assembly.codeSize_eq_sum (a : Assembly) :
    a.codeSize = (a.items.toList.map Item.size).sum := by
  rw [Assembly.codeSize, List.sum_eq_foldr, List.foldr_map]

/-- The code is as long as the sizes of the items together. -/
theorem Assembly.length_bytes {a : Assembly}
    (hlen : ∀ item ∈ a.items.toList, item.bytes.length = item.size) :
    a.bytes.length = a.codeSize := by
  rw [Assembly.bytes, a.codeSize_eq_sum, List.length_flatMap]
  exact congrArg List.sum (List.map_congr_left hlen)

/-! ### Labels -/

/-- The label an item binds. -/
def Item.labelId? (item : Item) : Option Nat :=
  match item.form with
  | .label id => some id
  | _ => none

/-- The labels that items bind, in order. -/
def boundLabels (items : List Item) : List Nat := items.filterMap Item.labelId?

/-- An item that binds a label. -/
theorem Item.labelId?_eq_some : item.labelId? = some id ↔ item.form = .label id := by
  unfold labelId?
  split <;> simp_all

/-- The labels bound depend on nothing but the forms. -/
theorem boundLabels_congr {items' : List Item} (h : items.map Item.form = items'.map Item.form) :
    boundLabels items = boundLabels items' := by
  have key : ∀ l : List Item, boundLabels l = (l.map Item.form).filterMap
      fun form => match form with | .label id => some id | _ => none := by
    intro l
    rw [boundLabels, List.filterMap_map]
    rfl
  rw [key, key, h]

/-- A label in front is bound. -/
theorem boundLabels_cons_of_label (h : item.labelId? = some id) (rest : List Item) :
    boundLabels (item :: rest) = id :: boundLabels rest :=
  List.filterMap_cons_some h

/-- Another item in front binds nothing. -/
theorem boundLabels_cons_of_none (h : item.labelId? = none) (rest : List Item) :
    boundLabels (item :: rest) = boundLabels rest :=
  List.filterMap_cons_none h

/-- Recording an item gives its label its offset and keeps all other labels. -/
theorem getElem?_record (offsets : LabelOffsets) (item : Item) (id : Nat) :
    (offsets.record item)[id]? =
      if item.labelId? = some id then some item.offset else offsets[id]? := by
  rw [LabelOffsets.record, Item.labelId?]
  cases item.form with
  | label bound =>
      rw [Std.HashMap.getElem?_insert]
      by_cases hid : bound = id <;> simp [hid]
  | code | jump => simp

/-- Labels that no item binds keep their offsets. -/
theorem getElem?_foldl_record_of_notMem (offsets : LabelOffsets) (h : id ∉ boundLabels items) :
    (items.foldl LabelOffsets.record offsets)[id]? = offsets[id]? := by
  induction items generalizing offsets with
  | nil => rfl
  | cons item rest ih =>
      rw [boundLabels, List.mem_filterMap] at h
      have hitem : item.labelId? ≠ some id := fun hid => h ⟨item, List.mem_cons_self, hid⟩
      have hrest : id ∉ boundLabels rest := by
        rw [boundLabels, List.mem_filterMap]
        rintro ⟨other, hother, hid⟩
        exact h ⟨other, List.mem_cons_of_mem _ hother, hid⟩
      rw [List.foldl_cons, ih _ hrest, getElem?_record, if_neg hitem]

/-- A label that is bound once gets the offset of the item that binds it. -/
theorem getElem?_foldl_record_of_label (hnodup : (boundLabels items).Nodup)
    (hitem : items[index]? = some item) (hid : item.labelId? = some id) (offsets : LabelOffsets) :
    (items.foldl LabelOffsets.record offsets)[id]? = some item.offset := by
  induction items generalizing offsets index with
  | nil => simp at hitem
  | cons first rest ih =>
      cases index with
      | zero =>
          rw [List.getElem?_cons_zero, Option.some.injEq] at hitem
          subst hitem
          rw [boundLabels_cons_of_label hid, List.nodup_cons] at hnodup
          rw [List.foldl_cons, getElem?_foldl_record_of_notMem _ hnodup.1, getElem?_record,
            if_pos hid]
      | succ index =>
          rw [List.getElem?_cons_succ] at hitem
          rw [List.foldl_cons]
          refine ih (hnodup.sublist ?_) hitem _
          exact (List.sublist_cons_self first rest).filterMap _

/-- The offset of a label that is bound once is the offset of the item that binds it. -/
theorem labelOffsets_getElem?_of_label (hnodup : (boundLabels items).Nodup)
    (hitem : items[index]? = some item) (hid : item.form = .label id) :
    (labelOffsets items)[id]? = some item.offset :=
  getElem?_foldl_record_of_label hnodup hitem (Item.labelId?_eq_some.mpr hid) _

/-- After recording items, a label has no offset exactly if it had none before and no item binds
it. -/
theorem getElem?_foldl_record_eq_none_iff (offsets : LabelOffsets) :
    (items.foldl LabelOffsets.record offsets)[id]? = none ↔
      offsets[id]? = none ∧ id ∉ boundLabels items := by
  induction items generalizing offsets with
  | nil => simp [boundLabels]
  | cons item rest ih =>
      rw [List.foldl_cons, ih, getElem?_record]
      by_cases hid : item.labelId? = some id
      · rw [if_pos hid, boundLabels_cons_of_label hid]
        simp
      · have hmem : id ∈ boundLabels (item :: rest) ↔ id ∈ boundLabels rest := by
          simp [boundLabels, List.mem_filterMap, hid]
        rw [if_neg hid, hmem]

/-- A label has no offset exactly if no item binds it. -/
theorem labelOffsets_getElem?_eq_none_iff : (labelOffsets items)[id]? = none ↔
    id ∉ boundLabels items := by
  rw [labelOffsets, getElem?_foldl_record_eq_none_iff]
  simp

/-! ### Labels bound twice -/

/-- A label in front repeats one seen before, or is seen now. -/
theorem repeatedLabel?_cons_of_label (h : item.labelId? = some id) (seen : Std.HashSet Nat)
    (rest : List Item) :
    repeatedLabel? seen (item :: rest) =
      if id ∈ seen then some id else repeatedLabel? (seen.insert id) rest := by
  simp only [repeatedLabel?, Item.labelId?_eq_some.mp h, Std.HashSet.contains_iff_mem]

/-- Another item in front repeats nothing. -/
theorem repeatedLabel?_cons_of_none (h : item.labelId? = none) (seen : Std.HashSet Nat)
    (rest : List Item) : repeatedLabel? seen (item :: rest) = repeatedLabel? seen rest := by
  rw [repeatedLabel?]
  split
  · rename_i id hform
    rw [Item.labelId?_eq_some.mpr hform] at h
    cases h
  · rfl

/-- The search for a label bound twice finds none exactly if no label is bound twice, nor bound
again after it was seen. -/
theorem repeatedLabel?_eq_none_iff {seen : Std.HashSet Nat} :
    repeatedLabel? seen items = none ↔
      (boundLabels items).Nodup ∧ ∀ id ∈ boundLabels items, id ∉ seen := by
  induction items generalizing seen with
  | nil => simp [repeatedLabel?, boundLabels]
  | cons item rest ih =>
      cases hid : item.labelId? with
      | none => rw [repeatedLabel?_cons_of_none hid, boundLabels_cons_of_none hid, ih]
      | some id =>
          rw [repeatedLabel?_cons_of_label hid, boundLabels_cons_of_label hid]
          by_cases hseen : id ∈ seen
          · simp [hseen]
          · rw [if_neg hseen, ih, List.nodup_cons]
            simp only [Std.HashSet.mem_insert, beq_iff_eq, not_or, List.mem_cons,
              forall_eq_or_imp]
            constructor
            · rintro ⟨hnodup, hnew⟩
              exact ⟨⟨fun hin => (hnew id hin).1 rfl, hnodup⟩, hseen, fun k hk => (hnew k hk).2⟩
            · rintro ⟨⟨hnew, hnodup⟩, -, hall⟩
              exact ⟨hnodup, fun k hk => ⟨fun heq => hnew (heq ▸ hk), hall k hk⟩⟩

/-- A label found to be bound again is bound twice, or was seen before. -/
theorem count_of_repeatedLabel? {seen : Std.HashSet Nat} (h : repeatedLabel? seen items = some id) :
    (id ∈ seen ∧ 1 ≤ (boundLabels items).count id) ∨ 2 ≤ (boundLabels items).count id := by
  induction items generalizing seen with
  | nil => simp [repeatedLabel?] at h
  | cons item rest ih =>
      cases hid : item.labelId? with
      | none =>
          rw [repeatedLabel?_cons_of_none hid] at h
          rw [boundLabels_cons_of_none hid]
          exact ih h
      | some bound =>
          rw [repeatedLabel?_cons_of_label hid] at h
          rw [boundLabels_cons_of_label hid, List.count_cons]
          by_cases hseen : bound ∈ seen
          · rw [if_pos hseen, Option.some.injEq] at h
            subst h
            exact Or.inl ⟨hseen, by simp⟩
          · rw [if_neg hseen] at h
            rcases ih h with ⟨hin, hcount⟩ | hcount
            · rcases Std.HashSet.mem_insert.mp hin with heq | hin
              · refine Or.inr ?_
                rw [if_pos heq]
                omega
              · exact Or.inl ⟨hin, by omega⟩
            · exact Or.inr (by omega)

end SlotJit.X64

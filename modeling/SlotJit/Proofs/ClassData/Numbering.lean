import Mathlib.Order.Monotone.Basic
import SlotJit.ClassData.ConstantPool

/-!
# The numbering of a constant pool

Instructions name constants by index. Indices count from one, and a wide constant takes the index
after its own as well, so each wide constant moves all constants behind it one index further
(`indexOf`).

## Main results

* `strictMono_indexOf`: indices grow with positions.
* `exists_position`, `getElem?_entries`: each index within the pool belongs to one constant, and
  what is there is one of the entries that this constant makes.
* `ofList_numbers_in_order`: the numbering as a whole.
-/

namespace SlotJit.ConstantPool

variable {constants : List Constant} {c : Constant} {k : Nat} {index : UInt16}

/-- The index of the constant at a position; positions count from zero. -/
def indexOf (constants : List Constant) (k : Nat) : Nat :=
  1 + k + (constants.take k).countP Constant.isWide

/-! ### Indices of positions -/

/-- A wide constant makes two entries. -/
theorem length_entries (c : Constant) : c.entries.length = 1 + if c.isWide then 1 else 0 := by
  cases hwide : c.isWide <;> simp [Constant.entries, hwide]

/-- The number of entries. -/
theorem length_flatMap_entries (constants : List Constant) :
    (constants.flatMap Constant.entries).length =
      constants.length + constants.countP Constant.isWide := by
  induction constants with
  | nil => rfl
  | cons first rest ih =>
      rw [List.flatMap_cons, List.length_append, ih, length_entries, List.length_cons,
        List.countP_cons]
      omega

/-- Each constant has an index, and each wide one a second. -/
theorem size_ofList (constants : List Constant) :
    (ofList constants).size = constants.length + constants.countP Constant.isWide := by
  rw [size, ofList, List.size_toArray, length_flatMap_entries]

/-- A constant behind another one has a greater index. -/
theorem strictMono_indexOf (constants : List Constant) : StrictMono (indexOf constants) := by
  intro j k h
  have hcount :
      (constants.take j).countP Constant.isWide ≤ (constants.take k).countP Constant.isWide :=
    (List.take_sublist_take_left h.le).countP_le
  rw [indexOf, indexOf]
  omega

/-- Indices stay within the pool. -/
theorem indexOf_le_size (h : constants[k]? = some c) :
    indexOf constants k ≤ (ofList constants).size := by
  have hend : indexOf constants constants.length = 1 + (ofList constants).size := by
    rw [indexOf, List.take_length, size_ofList, Nat.add_assoc]
  have hlt := strictMono_indexOf constants (List.getElem?_eq_some_iff.mp h).1
  omega

/-- Each index within the pool belongs to a constant: it is the index of the constant, or one of
those that its further entries take. -/
theorem exists_position {i : Nat} (h : i < (constants.flatMap Constant.entries).length) :
    ∃ k c j, constants[k]? = some c ∧ j < c.entries.length ∧ i + 1 = indexOf constants k + j := by
  induction constants generalizing i with
  | nil => exact absurd h (Nat.not_lt_zero i)
  | cons first rest ih =>
      by_cases hi : i < first.entries.length
      · exact ⟨0, first, i, rfl, hi, Nat.add_comm i 1⟩
      · rw [List.flatMap_cons, List.length_append] at h
        obtain ⟨k, c, j, hc, hj, hindex⟩ := ih (i := i - first.entries.length) (by omega)
        refine ⟨k + 1, c, j, hc, hj, ?_⟩
        rw [length_entries] at hi hindex
        rw [indexOf] at hindex ⊢
        rw [List.take_succ_cons, List.countP_cons]
        omega

/-! ### Constants at indices -/

/-- The entries that a constant makes stand at its index. -/
theorem getElem?_entries {j : Nat} (h : constants[k]? = some c) (hj : j < c.entries.length) :
    (constants.flatMap Constant.entries)[indexOf constants k - 1 + j]? = c.entries[j]? := by
  obtain ⟨hk, rfl⟩ := List.getElem?_eq_some_iff.mp h
  have hparts : constants.flatMap Constant.entries = (constants.take k).flatMap Constant.entries ++
      (constants[k].entries ++ (constants.drop (k + 1)).flatMap Constant.entries) := by
    rw [← List.flatMap_cons, ← List.drop_eq_getElem_cons hk, ← List.flatMap_append,
      List.take_append_drop]
  have hbefore : ((constants.take k).flatMap Constant.entries).length =
      indexOf constants k - 1 := by
    rw [length_flatMap_entries, List.length_take, Nat.min_eq_left (Nat.le_of_lt hk), indexOf]
    omega
  rw [hparts, ← hbefore, List.getElem?_append_right (Nat.le_add_right _ _), Nat.add_sub_cancel_left,
    List.getElem?_append_left hj]

/-- The first entry of a constant holds it, and a second one holds nothing. -/
theorem join_getElem?_entries {j : Nat} (hj : j < c.entries.length) :
    c.entries[j]?.join = if j = 0 then some c else none := by
  cases hwide : c.isWide with
  | false =>
      obtain rfl : j = 0 := by simpa [length_entries, hwide] using hj
      simp [Constant.entries, hwide]
  | true =>
      obtain rfl | rfl : j = 0 ∨ j = 1 := by
        rw [length_entries, hwide, if_pos rfl] at hj
        omega
      · simp [Constant.entries, hwide]
      · simp [Constant.entries, hwide]

/-- An index is one more than the place of its entry. -/
theorem get?_of_toNat {i : Nat} (h : index.toNat = i + 1) :
    (ofList constants).get? index = (constants.flatMap Constant.entries)[i]?.join := by
  simp only [get?, h, ofList, List.getElem?_toArray]

/-- At the indices that belong to a constant there is the constant first, and then nothing. -/
theorem get?_of_position {j : Nat} (h : constants[k]? = some c) (hj : j < c.entries.length)
    (hindex : index.toNat = indexOf constants k + j) :
    (ofList constants).get? index = if j = 0 then some c else none := by
  have hpos : 0 < indexOf constants k := by
    rw [indexOf]
    omega
  rw [get?_of_toNat (i := indexOf constants k - 1 + j) (by omega), getElem?_entries h hj,
    join_getElem?_entries hj]

/-- No entry is outside. -/
theorem get?_of_outside (h : index = 0 ∨ (ofList constants).size < index.toNat) :
    (ofList constants).get? index = none := by
  rcases h with rfl | h
  · rfl
  · rw [size_ofList, ← length_flatMap_entries] at h
    rw [get?_of_toNat (i := index.toNat - 1) (by omega), List.getElem?_eq_none (by omega),
      Option.join_none]

/-- An index outside of the pool is zero or past the end, and one within belongs to a constant. -/
theorem outside_or_position (constants : List Constant) (index : UInt16) :
    (index = 0 ∨ (ofList constants).size < index.toNat) ∨
      ∃ k c j, constants[k]? = some c ∧ j < c.entries.length ∧
        index.toNat = indexOf constants k + j := by
  by_cases h : index = 0 ∨ (ofList constants).size < index.toNat
  · exact .inl h
  · rw [size_ofList, ← length_flatMap_entries] at h
    have hpos : index.toNat ≠ 0 := fun hzero => h (.inl (UInt16.toNat_inj.mp hzero))
    have hin : index.toNat - 1 < (constants.flatMap Constant.entries).length := by omega
    obtain ⟨k, c, j, hc, hj, hindex⟩ := exists_position hin
    exact .inr ⟨k, c, j, hc, hj, by omega⟩

/-- An entry is found by the number of its constant. -/
theorem get?_eq_some_iff : (ofList constants).get? index = some c ↔
    ∃ k, constants[k]? = some c ∧ index.toNat = indexOf constants k := by
  constructor
  · intro h
    rcases outside_or_position constants index with hout | ⟨k, d, j, hd, hj, hindex⟩
    · rw [get?_of_outside hout] at h
      cases h
    · rw [get?_of_position hd hj hindex] at h
      split at h
      · rename_i hzero
        cases h
        exact ⟨k, hd, by rw [hindex, hzero, Nat.add_zero]⟩
      · cases h
  · rintro ⟨k, hc, hindex⟩
    have hfirst : 0 < c.entries.length := by
      rw [length_entries]
      omega
    rw [get?_of_position hc hfirst hindex, if_pos rfl]

/-- No entry is found outside and behind a wide constant. -/
theorem get?_eq_none_iff : (ofList constants).get? index = none ↔
    index = 0 ∨ (ofList constants).size < index.toNat ∨
      ∃ k c, constants[k]? = some c ∧ c.isWide = true ∧ index.toNat = indexOf constants k + 1 := by
  rw [← or_assoc]
  constructor
  · intro h
    refine (outside_or_position constants index).imp_right ?_
    rintro ⟨k, c, j, hc, hj, hindex⟩
    rw [get?_of_position hc hj hindex] at h
    have hsecond : j ≠ 0 := fun hzero => by simp [hzero] at h
    rw [length_entries] at hj
    split at hj
    · rename_i hwide
      exact ⟨k, c, hc, hwide, by omega⟩
    · omega
  · rintro (hout | ⟨k, c, hc, hwide, hindex⟩)
    · exact get?_of_outside hout
    · exact get?_of_position hc (by simp [length_entries, hwide]) hindex

/-- The numbering of a pool. The index of a constant is one more than the number of constants before
it and of wide constants among them. An index gives nothing if it is zero, past the end, or the one
after that of a wide constant. There are as many indices as constants and wide constants, no two
positions share one, and up to 65535 each constant can be named. -/
theorem ofList_numbers_in_order (constants : List Constant) :
    (∀ index c, (ofList constants).get? index = some c ↔
      ∃ k, constants[k]? = some c ∧ index.toNat = indexOf constants k) ∧
    (∀ index, (ofList constants).get? index = none ↔
      index = 0 ∨ (ofList constants).size < index.toNat ∨
        ∃ k c, constants[k]? = some c ∧ c.isWide = true ∧ index.toNat = indexOf constants k + 1) ∧
    (ofList constants).size = constants.length + constants.countP Constant.isWide ∧
    Function.Injective (indexOf constants) ∧
    ((ofList constants).size ≤ 65535 → ∀ k c, constants[k]? = some c →
      ∃ index : UInt16, index.toNat = indexOf constants k ∧
        (ofList constants).get? index = some c) := by
  refine ⟨fun _ _ => get?_eq_some_iff, fun _ => get?_eq_none_iff, size_ofList constants,
    (strictMono_indexOf constants).injective, fun hsize k c hc => ?_⟩
  have hindex : (UInt16.ofNat (indexOf constants k)).toNat = indexOf constants k :=
    UInt16.toNat_ofNat_of_lt' (Nat.lt_succ_of_le ((indexOf_le_size hc).trans hsize))
  exact ⟨_, hindex, get?_eq_some_iff.mpr ⟨k, hc, hindex⟩⟩

/-- Two wide constants and a narrow one behind them. -/
def twoWide : List Constant := [.long 1, .double 0x4000000000000000, .int 3]

/-- Both wide constants count for the index of the one behind them, and leave an index without
constant. -/
theorem ofList_numbers_in_order_twoWide :
    ((ofList twoWide).size ≤ 65535 ∧ indexOf twoWide 2 = 5 ∧
      ∃ index : UInt16, index.toNat = 5 ∧ (ofList twoWide).get? index = some (.int 3)) ∧
    (ofList twoWide).get? 4 = none := by
  obtain ⟨-, hnone, -, -, hreach⟩ := ofList_numbers_in_order twoWide
  exact ⟨⟨by decide, rfl, hreach (by decide) 2 _ rfl⟩,
    (hnone 4).mpr (.inr (.inr ⟨1, _, rfl, rfl, rfl⟩))⟩

end SlotJit.ConstantPool

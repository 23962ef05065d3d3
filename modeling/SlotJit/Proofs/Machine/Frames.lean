import SlotJit.Codegen.Convention
import SlotJit.Machine.State
import SlotJit.Proofs.Semantics.Values

/-!
# Frames in memory

A frame is a run of slots of the slot array, and its base is in `rsi`. A memory operand that is a
slot's displacement, and for a reference eight bytes more, stands for the part of the slot where
values of a type are. So a load gives the bits of the value in the slot, and a store changes the
slot to one with the value stored to it (`Sees.loading`, `Sees.storing`).
-/

namespace SlotJit.Machine

open SlotJit.Codegen SlotJit.Semantics SlotJit.X64

/-! ### Registers -/

section Registers

variable (s : State) (r : Reg) (value : Word)

/-- A register that was written has its value. -/
@[simp] theorem State.reg_setReg_same : (s.setReg r value).reg r = value :=
  Vector.getElem_set_self r.number_lt

/-- Other registers stay. -/
theorem State.reg_setReg_of_ne {r' : Reg} (h : r' ≠ r) : (s.setReg r value).reg r' = s.reg r' := by
  have hnumber : r.number ≠ r'.number := fun heq => h (by
    rw [← Reg.ofNumber_number r', ← heq, Reg.ofNumber_number])
  exact Vector.getElem_set_ne r.number_lt r'.number_lt hnumber

/-- A vector register that was written has its value. -/
@[simp] theorem State.xmm_setXmm_same (x : Xmm) : (s.setXmm x value).xmm x = value :=
  Vector.getElem_set_self x.isLt

/-- Writing a register leaves memory alone. -/
@[simp] theorem State.memory_setReg : (s.setReg r value).memory = s.memory := rfl

/-- Writing a register leaves the flags alone. -/
@[simp] theorem State.flags_setReg : (s.setReg r value).flags = s.flags := rfl

end Registers

/-! ### The bits of values -/

/-- The part of a word that an operand size covers is what a value of a type is read from. -/
theorem bits_ofBits (ty : ValueType) (w : Word) :
    (Value.ofBits ty w).bits = Memory.part (sizeOf ty) w := by
  cases ty with
  | int | float => exact (Word.lowHalf_eq w).symm
  | long | double | ref => rfl

/-- A value is made from its bits. -/
@[simp] theorem ofBits_bits (v : Value) : Value.ofBits v.type v.bits = v := by
  cases v with
  | int x | float x => simp [Value.ofBits, Value.bits, Value.type]
  | long x | double x | ref x => rfl

/-- A word whose low half is replaced is put together from halves. -/
theorem withLowHalf_eq (old new : Word) :
    old.withLowHalf new = old.extractLsb' 32 32 ++ new.setWidth 32 := by
  apply BitVec.eq_of_getLsbD_eq
  intro i hi
  rw [Word.getLsbD_withLowHalf old new i hi, BitVec.getLsbD_append]
  by_cases hlow : i < 32
  · simp [hlow]
  · have hsub : 32 + (i - 32) = i := by omega
    have hrange : i - 32 < 32 := by omega
    simp [hlow, hsub, hrange]

/-! ### Slots in memory -/

/-- A byte of a slot: the first eight are those of the scalar, the others those of the reference. -/
def Slot.byte (k : Nat) (slot : Slot) : BitVec 8 :=
  if k < 8 then slot.scalar.extractLsb' (8 * k) 8 else slot.ref.extractLsb' (8 * (k - 8)) 8

/-- Storing an int or a long changes no byte past its own. -/
theorem Slot.byte_store {ty : Integral} {v : Value} (hty : v.type = ty.valueType) {k : Nat}
    (hk : width (Codegen.sizeOf ty.valueType) / 8 ≤ k) (slot : Slot) :
    (v.store slot).byte k = slot.byte k := by
  cases ty with
  | int =>
      have hk : 4 ≤ k := hk
      obtain ⟨x, rfl⟩ : ∃ x, v = .int x := by cases v <;> first | exact ⟨_, rfl⟩ | cases hty
      by_cases hlow : k < 8
      · simp only [Slot.byte, hlow, if_true, Value.store]
        ext i hi
        have hnot : ¬ 8 * k + i < 32 := by omega
        have hsub : 32 + (8 * k + i - 32) = 8 * k + i := by omega
        have hrange : 8 * k + i - 32 < 32 := by omega
        rw [BitVec.getElem_extractLsb', BitVec.getElem_extractLsb', BitVec.getLsbD_append]
        simp [hnot, hsub, hrange]
      · simp [Slot.byte, hlow, Value.store]
  | long =>
      have hk : 8 ≤ k := hk
      obtain ⟨x, rfl⟩ : ∃ x, v = .long x := by cases v <;> first | exact ⟨_, rfl⟩ | cases hty
      simp [Slot.byte, Nat.not_lt.mpr hk, Value.store]

namespace Memory

variable {m : Memory} {j : Nat}

/-- The address of a slot. -/
def slotAddress (m : Memory) (j : Nat) : Word := BitVec.ofNat 64 (m.heap.place.slotBase + 16 * j)

/-- The part of a slot where values of a type are. -/
def valueCell : ValueType → Nat → Cell
  | .ref, j => .ref j
  | _, j => .scalar j

/-- The address of that part. -/
def valueAddress (m : Memory) (ty : ValueType) (j : Nat) : Word :=
  BitVec.ofNat 64 (m.heap.place.slotBase + 16 * j + (location ty).2.toInt.toNat)

/-- The slot array does not run past the last address. -/
def SlotsFit (m : Memory) : Prop := m.heap.place.slotBase + 16 * m.slots.size ≤ 2 ^ 64

/-- Whether the slots fit depends on their number and the heap's place. -/
theorem SlotsFit.congr {m' : Memory} (h : m.SlotsFit) (hplace : m'.heap.place = m.heap.place)
    (hsize : m'.slots.size = m.slots.size) : m'.SlotsFit := by
  rw [SlotsFit, hplace, hsize]
  exact h

/-- The address of a value in a slot stands for the part where it is. -/
theorem cell?_valueAddress (hfit : m.SlotsFit) (hj : j < m.slots.size) (ty : ValueType) :
    m.cell? (m.valueAddress ty j) = some (valueCell ty j) := by
  have hoffset : (location ty).2.toInt.toNat = if ty = .ref then 8 else 0 := by
    cases ty <;> decide
  unfold SlotsFit at hfit
  have haddress : (m.valueAddress ty j).toNat =
      m.heap.place.slotBase + 16 * j + if ty = .ref then 8 else 0 := by
    rw [valueAddress, hoffset, BitVec.toNat_ofNat, Nat.mod_eq_of_lt]
    split <;> omega
  unfold cell?
  simp only [haddress]
  by_cases href : ty = .ref
  · subst href
    have hrange : m.heap.place.slotBase ≤ m.heap.place.slotBase + 16 * j + 8 ∧
        m.heap.place.slotBase + 16 * j + 8 < m.heap.place.slotBase + 16 * m.slots.size := by omega
    have hsub : m.heap.place.slotBase + 16 * j + 8 - m.heap.place.slotBase = 16 * j + 8 := by omega
    have hmod : (16 * j + 8) % 16 = 8 := by omega
    have hdiv : (16 * j + 8) / 16 = j := by omega
    simp [hrange, hsub, hmod, hdiv, valueCell]
  · have hrange : m.heap.place.slotBase ≤ m.heap.place.slotBase + 16 * j ∧
        m.heap.place.slotBase + 16 * j < m.heap.place.slotBase + 16 * m.slots.size := by omega
    have hsub : m.heap.place.slotBase + 16 * j - m.heap.place.slotBase = 16 * j := by omega
    have hcell : valueCell ty j = .scalar j := by cases ty <;> first | rfl | exact absurd rfl href
    simp [href, hrange, hsub, hcell]

/-- Reading a value gives its bits. -/
theorem read?_valueAddress (hfit : m.SlotsFit) {slot : Slot} (hslot : m.slots[j]? = some slot)
    (ty : ValueType) :
    m.read? (sizeOf ty) (m.valueAddress ty j) = some (Value.ofSlot ty slot).bits := by
  have hj : j < m.slots.size := (Array.getElem?_eq_some_iff.mp hslot).1
  unfold read?
  rw [cell?_valueAddress hfit hj]
  cases ty <;> simp [valueCell, hslot, Value.ofSlot, bits_ofBits]

/-- Storing a value changes the slot that it is stored to. -/
theorem store_valueCell (m : Memory) (ty : ValueType) (j : Nat) (w : Word) :
    m.store (valueCell ty j) (sizeOf ty) w =
      { m with slots := m.slots.modify j (Value.ofBits ty w).store } := by
  cases ty with
  | int | float =>
      simp only [store, valueCell, Codegen.sizeOf, location, merged, withLowHalf_eq]
      rfl
  | long | double | ref => rfl

/-- A value's place in a slot can be written. -/
theorem writable_valueCell (ty : ValueType) (j : Nat) (size : Size) :
    writable (valueCell ty j) size = true := by
  cases ty <;> rfl

end Memory

/-! ### Frames -/

/-- The frame of some slots that starts at a slot of the array is in reach: its base is in `rsi`. -/
structure State.AtFrame (base count : Nat) (s : State) : Prop where
  rsi : s.reg frameReg = s.memory.slotAddress base
  fits : base + count ≤ s.memory.slots.size
  slotsFit : s.memory.SlotsFit

/-- The displacement of a slot that is not taken for a negative one. -/
theorem toInt_slotDisp {index : Nat} {disp : Int32} (hindex : index < 2 ^ 31)
    (h : slotDisp index = .ok disp) : disp.toInt = 16 * index ∧ index < 2 ^ 27 := by
  have hvalue : (Int32.ofNat index).toInt = index := by
    rw [Int32.toInt_ofNat_of_lt (by omega)]
  have hsize : slotSize.toInt = 16 := by decide
  unfold slotDisp displacement at h
  rw [hvalue, hsize] at h
  split at h
  · cases h
    rw [Int32.toInt_ofInt_of_le (by omega) (by omega)]
    omega
  · cases h

namespace State

variable {s : State} {base count index : Nat} {disp : Int32}

/-- Where the operand for a value in a slot is. -/
theorem AtFrame.address (h : s.AtFrame base count) (hindex : index < 2 ^ 31)
    (hdisp : slotDisp index = .ok disp) (ty : ValueType) :
    s.address (frameMem (disp + (location ty).2)) = s.memory.valueAddress ty (base + index) := by
  obtain ⟨hvalue, hsmall⟩ := toInt_slotDisp hindex hdisp
  have hoffset : (location ty).2.toInt = 0 ∨ (location ty).2.toInt = 8 := by
    cases ty <;> decide
  have hsum : (disp + (location ty).2).toInt = 16 * index + (location ty).2.toInt := by
    rw [Int32.toInt_add, hvalue]
    exact Int.bmod_eq_of_le (by omega) (by omega)
  simp only [State.address, frameMem, h.rsi, Word.add_eq, Word.ofInt32_eq, hsum, Memory.slotAddress,
    Memory.valueAddress]
  have hcast : (16 * index + (location ty).2.toInt : Int) =
      ((16 * index + (location ty).2.toInt.toNat : Nat) : Int) := by omega
  rw [hcast, BitVec.ofInt_natCast, ← BitVec.ofNat_add]
  congr 1
  omega

/-- The state after a value was stored to a slot of the array. -/
def put (s : State) (j : Nat) (v : Value) : State :=
  { s with memory.slots := s.memory.slots.modify j v.store }

/-- Storing a value leaves the registers alone. -/
@[simp] theorem reg_put (s : State) (j : Nat) (v : Value) (r : Reg) :
    (s.put j v).reg r = s.reg r := rfl

/-- Storing a value leaves the flags alone. -/
@[simp] theorem flags_put (s : State) (j : Nat) (v : Value) : (s.put j v).flags = s.flags := rfl

/-- A frame is in reach and has this content. -/
structure Sees (base count : Nat) (frame : Frame) (s : State) : Prop
    extends s.AtFrame base count where
  slots : ∀ i < count, s.memory.slots[base + i]? = some (frame i)

variable {frame : Frame}

/-- Reading a value from a slot of the frame. -/
theorem Sees.loading (h : s.Sees base count frame) (hcount : count < 2 ^ 31)
    (hindex : index < count) (hdisp : slotDisp index = .ok disp) (ty : ValueType)
    (k : State → Word → Progress) :
    s.loading (Codegen.sizeOf ty) (s.address (frameMem (disp + (location ty).2))) k =
      k s (frame.get ty index).bits := by
  rw [State.loading, h.address (Nat.lt_trans hindex hcount) hdisp,
    Memory.read?_valueAddress h.slotsFit (h.slots index hindex)]
  rfl

/-- Storing a value to a slot of the frame. -/
theorem Sees.storing (h : s.Sees base count frame) (hcount : count < 2 ^ 31)
    (hindex : index < count) (hdisp : slotDisp index = .ok disp) (ty : ValueType) (w : Word)
    (k : State → Progress) :
    s.storing (Codegen.sizeOf ty) (s.address (frameMem (disp + (location ty).2))) w k =
      k (s.put (base + index) (Value.ofBits ty w)) := by
  have hlt : base + index < s.memory.slots.size := by
    have := h.fits
    omega
  rw [State.storing, h.address (Nat.lt_trans hindex hcount) hdisp,
    Memory.cell?_valueAddress h.slotsFit hlt]
  simp only [Memory.writable_valueCell, if_true, Memory.store_valueCell]
  rfl

/-- The frame after a store has the value stored. -/
theorem Sees.put (h : s.Sees base count frame) (hindex : index < count) (v : Value) :
    (s.put (base + index) v).Sees base count (frame.set index v) := by
  have hsize : (s.put (base + index) v).memory.slots.size = s.memory.slots.size := by
    simp [State.put]
  refine ⟨⟨h.rsi, hsize ▸ h.fits, h.slotsFit.congr rfl hsize⟩, fun i hi => ?_⟩
  have hslot := h.slots i hi
  by_cases heq : i = index
  · subst heq
    simp [State.put, Array.getElem?_modify, hslot, Frame.set]
  · have hne : index ≠ i := Ne.symm heq
    simp [State.put, Array.getElem?_modify, hslot, Frame.set, heq, hne]

end State

end SlotJit.Machine

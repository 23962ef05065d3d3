import SlotJit.Proofs.Machine.Frames

/-!
# Addresses and what they stand for

Slots, the environment, the native stack, array headers and array elements lie anywhere in the
address space, in areas that do not meet (`Memory.Addressable`). An address that is made from the
base of an area then stands for a cell of that area, and different cells have different addresses.

An array is reached through the address of its header, which is its reference. The header holds the
address of the elements and the length. A new array gets a header behind all others, so its
reference is new.

## Main results

* `Heap.index?_eq_some_iff`: the references that stand for arrays.
* `Addressable.cell?_length`, `Addressable.cell?_reference`, `Addressable.cell?_element`: the cells
  of an array.
* `Addressable.read?_store_element`: what a store to an element changes.
* `Heap.fresh_reference`: the reference to a new array.
-/

namespace SlotJit.Machine

open SlotJit.Codegen SlotJit.X64

/-! ### Elements -/

/-- An element after one was changed. -/
theorem IntArray.get_set (a : IntArray) (i j : Nat) (x : BitVec 32) :
    (a.set i x).get j = if i = j then x else a.get j := by
  simp only [IntArray.get, IntArray.set, Std.HashMap.getD_insert, beq_iff_eq]

/-- A new array is all zero. -/
theorem IntArray.get_new (length i : Nat) : ({ length } : IntArray).get i = 0 :=
  Std.HashMap.getD_empty

/-! ### Areas -/

/-- A run of addresses. -/
structure Area where
  start : Nat
  size : Nat
deriving DecidableEq

/-- Areas that do not run past the last address, and of which no two meet. -/
structure Apart (areas : List Area) : Prop where
  fits : ∀ a ∈ areas, a.start + a.size ≤ 2 ^ 64
  disjoint : areas.Pairwise fun a b => a.start + a.size ≤ b.start ∨ b.start + b.size ≤ a.start

/-- Two of the areas, by their positions. -/
theorem Apart.of_lt {areas : List Area} (h : Apart areas) {i j : Nat} (hij : i < j) {a b : Area}
    (ha : areas[i]? = some a) (hb : areas[j]? = some b) :
    a.start + a.size ≤ b.start ∨ b.start + b.size ≤ a.start := by
  obtain ⟨hi, rfl⟩ := List.getElem?_eq_some_iff.mp ha
  obtain ⟨hj, rfl⟩ := List.getElem?_eq_some_iff.mp hb
  exact List.pairwise_iff_getElem.mp h.disjoint i j hi hj hij

/-- The areas of a run besides its arrays: the slots, the environment and the native stack. -/
def Place.runAreas (p : Place) (slots words : Nat) : List Area :=
  [⟨p.slotBase, 16 * slots⟩, ⟨p.envBase, 8⟩, ⟨p.stackBase, 8 * words⟩]

/-- The areas of the run are apart in a memory. -/
def Memory.RunApart (m : Memory) : Prop :=
  Apart (m.heap.place.runAreas m.slots.size m.stack.size)

namespace Memory.RunApart

variable {m m' : Memory}

/-- Whether areas are apart is a matter of the place and of the numbers of slots and words. -/
theorem congr (h : m.RunApart) (hplace : m'.heap.place = m.heap.place)
    (hslots : m'.slots.size = m.slots.size) (hstack : m'.stack.size = m.stack.size) :
    m'.RunApart := by
  rw [RunApart, hplace, hslots, hstack]
  exact h

/-- The slot array is one of the areas. -/
theorem slotsFit (h : m.RunApart) : m.SlotsFit := h.fits _ (List.mem_of_getElem? (i := 0) rfl)

/-- The address of the environment stands for its limit. -/
theorem cell?_envBase (h : m.RunApart) :
    m.cell? (BitVec.ofNat 64 m.heap.place.envBase) = some .limit := by
  have hslots := h.of_lt (by decide : 0 < 1) rfl rfl
  dsimp only at hslots
  unfold cell?
  simp only [BitVec.toNat_ofNat, Nat.mod_eq_of_lt m.heap.place.envBase_lt]
  rw [if_neg (by omega), if_pos trivial]

end Memory.RunApart

/-- The address of the environment is not null. -/
theorem Place.envBase_ne_zero (p : Place) : BitVec.ofNat 64 p.envBase ≠ 0 := by
  intro hnull
  have hzero := congrArg BitVec.toNat hnull
  rw [BitVec.toNat_ofNat, Nat.mod_eq_of_lt p.envBase_lt] at hzero
  exact Nat.ne_of_gt p.envBase_pos hzero

/-- The elements of arrays lie one span after the other. -/
theorem Place.elementBase_eq (p : Place) (k : Nat) :
    p.elementBase k = p.elementBase 0 + k * Place.elementSpan := by
  simp only [Place.elementBase]
  omega

/-! ### References -/

namespace Heap

variable {h : Heap}

/-- All headers have addresses, also the one that a new array would get. -/
def HeadersFit (h : Heap) : Prop :=
  h.place.headerBase + (h.arrays.size + 1) * h.place.headerGap ≤ 2 ^ 64

theorem toNat_reference (hfit : h.HeadersFit) {k : Nat} (hk : k ≤ h.arrays.size) :
    (h.reference k).toNat = h.place.headerBase + k * h.place.headerGap := by
  have hgap := h.place.headerGap_ge
  have hmul := Nat.mul_le_mul_right h.place.headerGap hk
  rw [HeadersFit, Nat.succ_mul] at hfit
  rw [reference, BitVec.toNat_ofNat, Nat.mod_eq_of_lt (by omega)]

/-- The references that stand for arrays. -/
theorem index?_eq_some_iff (hfit : h.HeadersFit) {r : Word} {k : Nat} :
    h.index? r = some k ↔ k < h.arrays.size ∧ r = h.reference k := by
  constructor
  · intro hindex
    unfold index? at hindex
    simp only at hindex
    split at hindex
    · rename_i hr
      cases hindex
      refine ⟨hr.2.2, ?_⟩
      have hdiv := Nat.div_add_mod' (r.toNat - h.place.headerBase) h.place.headerGap
      have hsum : h.place.headerBase +
          (r.toNat - h.place.headerBase) / h.place.headerGap * h.place.headerGap = r.toNat := by
        omega
      rw [reference, hsum, BitVec.ofNat_toNat, BitVec.setWidth_eq]
    · cases hindex
  · rintro ⟨hk, rfl⟩
    refine index?_reference h ?_ hk
    rw [HeadersFit, Nat.succ_mul] at hfit
    omega

/-- The reference to a new array is not null and stands for none of the arrays that there are. -/
theorem fresh_reference (hfit : h.HeadersFit) :
    h.reference h.arrays.size ≠ 0 ∧ h.index? (h.reference h.arrays.size) = none ∧
      ∀ k < h.arrays.size, h.reference k ≠ h.reference h.arrays.size := by
  have hbase := h.place.headerBase_pos
  have hgap := h.place.headerGap_ge
  have hnew := toNat_reference hfit (Nat.le_refl h.arrays.size)
  have hne : ∀ k < h.arrays.size, h.reference k ≠ h.reference h.arrays.size := by
    intro k hk heq
    have hold := toNat_reference hfit (Nat.le_of_lt hk)
    have hlt := Nat.mul_lt_mul_of_pos_right hk (by omega : 0 < h.place.headerGap)
    rw [heq, hnew] at hold
    omega
  refine ⟨fun hnull => ?_, ?_, hne⟩
  · rw [hnull] at hnew
    have hzero : (0 : Word).toNat = 0 := rfl
    omega
  · refine Option.eq_none_iff_forall_ne_some.mpr fun k hk => ?_
    obtain ⟨hlt, heq⟩ := (index?_eq_some_iff hfit).mp hk
    exact hne k hlt heq.symm

end Heap

/-! ### Cells -/

namespace Memory

/-- All areas of memory: those of the run, the headers with the one that a new array would get, and
the elements. -/
def areas (m : Memory) : List Area :=
  m.heap.place.runAreas m.slots.size m.stack.size ++
    [⟨m.heap.place.headerBase, (m.heap.arrays.size + 1) * m.heap.place.headerGap⟩,
      ⟨m.heap.place.elementBase 0, m.heap.arrays.size * Place.elementSpan⟩]

/-- Everything in memory has addresses of its own. The length of an array is an int. -/
structure Addressable (m : Memory) : Prop where
  apart : Apart m.areas
  lengths : ∀ array ∈ m.heap.arrays, array.length < 2 ^ 31

/-- The address of an element of an array. -/
def elementAddress (m : Memory) (k i : Nat) : Word :=
  BitVec.ofNat 64 (m.heap.place.elementBase k + 4 * i)

variable {m m' : Memory}

/-- An address of the native stack stands for the same word as long as no part of memory but the
arrays changes its size. -/
theorem cell?_stack_congr {a : Word} {w : Nat} (h : m.cell? a = some (.stack w))
    (hplace : m'.heap.place = m.heap.place) (hslots : m'.slots.size = m.slots.size)
    (hstack : m'.stack.size = m.stack.size) : w < m.stack.size ∧ m'.cell? a = some (.stack w) := by
  unfold cell? at h ⊢
  simp only [hplace, hslots, hstack] at h ⊢
  split at h
  · split at h
    · cases h
    · split at h <;> cases h
  · rename_i hnotSlot
    rw [if_neg hnotSlot]
    split at h
    · cases h
    · rename_i hnotEnv
      rw [if_neg hnotEnv]
      split at h
      · rename_i hin
        rw [if_pos hin]
        split at h
        · rename_i haligned
          cases h
          rw [if_pos haligned]
          exact ⟨by omega, rfl⟩
        · cases h
      · split at h
        · split at h <;> cases h
        · split at h
          · split at h
            · split at h <;> cases h
            · cases h
          · cases h

namespace Addressable

variable {k i : Nat}

theorem headersFit (h : m.Addressable) : m.heap.HeadersFit :=
  h.apart.fits _ (List.mem_of_getElem? (i := 3) rfl)

/-- What an address in a header stands for. -/
theorem cell?_header (h : m.Addressable) (hk : k < m.heap.arrays.size) {a : Word} {d : Nat}
    (hd : d < 16) (ha : a.toNat = m.heap.place.headerBase + k * m.heap.place.headerGap + d) :
    (d = 0 → m.cell? a = some (.elements k)) ∧ (d = 8 → m.cell? a = some (.length k)) := by
  have hgap := m.heap.place.headerGap_ge
  have hslots := h.apart.of_lt (by decide : 0 < 3) rfl rfl
  have henv := h.apart.of_lt (by decide : 1 < 3) rfl rfl
  have hstack := h.apart.of_lt (by decide : 2 < 3) rfl rfl
  have hlt : (k + 1) * m.heap.place.headerGap ≤ m.heap.arrays.size * m.heap.place.headerGap :=
    Nat.mul_le_mul_right _ hk
  rw [Nat.succ_mul] at hlt
  simp only [Nat.succ_mul] at hslots henv hstack
  have hmod : (k * m.heap.place.headerGap + d) % m.heap.place.headerGap = d := by
    rw [Nat.mul_comm, Nat.mul_add_mod, Nat.mod_eq_of_lt (by omega)]
  have hdiv : (k * m.heap.place.headerGap + d) / m.heap.place.headerGap = k := by
    rw [Nat.mul_comm, Nat.mul_add_div (by omega), Nat.div_eq_of_lt (by omega), Nat.add_zero]
  unfold cell?
  simp only [ha]
  rw [if_neg (by omega), if_neg (by omega), if_neg (by omega), if_pos (by omega), Nat.add_assoc,
    Nat.add_sub_cancel_left, hmod, hdiv]
  constructor <;>
  · rintro rfl
    rfl

/-- A reference is the address of the word that tells where the elements are. -/
theorem cell?_reference (h : m.Addressable) (hk : k < m.heap.arrays.size) :
    m.cell? (m.heap.reference k) = some (.elements k) := by
  refine (h.cell?_header hk (d := 0) (by decide) ?_).1 rfl
  exact Heap.toNat_reference h.headersFit (Nat.le_of_lt hk)

/-- The length is eight bytes behind. -/
theorem cell?_length (h : m.Addressable) (hk : k < m.heap.arrays.size) :
    m.cell? (m.heap.reference k + 8) = some (.length k) := by
  have hgap := m.heap.place.headerGap_ge
  have hheaders := h.headersFit
  have haddress := Heap.toNat_reference h.headersFit (Nat.le_of_lt hk)
  have hle : k * m.heap.place.headerGap ≤ m.heap.arrays.size * m.heap.place.headerGap :=
    Nat.mul_le_mul_right _ (Nat.le_of_lt hk)
  rw [Heap.HeadersFit, Nat.succ_mul] at hheaders
  have height : (8 : Word).toNat = 8 := rfl
  refine (h.cell?_header hk (d := 8) (by decide) ?_).2 rfl
  rw [BitVec.toNat_add, haddress, height, Nat.mod_eq_of_lt (by omega)]

/-- Elements are at addresses. -/
theorem toNat_elementAddress (h : m.Addressable) {array : IntArray}
    (harray : m.heap.arrays[k]? = some array) (hi : i < array.length) :
    (m.elementAddress k i).toNat = m.heap.place.elementBase 0 + (k * Place.elementSpan + 4 * i) ∧
      4 * i < Place.elementSpan := by
  have hk := (Array.getElem?_eq_some_iff.mp harray).1
  have hlength := h.lengths array (Array.mem_of_getElem? harray)
  have hlast : m.heap.place.elementBase 0 + m.heap.arrays.size * Place.elementSpan ≤ 2 ^ 64 :=
    h.apart.fits _ (List.mem_of_getElem? (i := 4) rfl)
  have hspan : (k + 1) * Place.elementSpan ≤ m.heap.arrays.size * Place.elementSpan :=
    Nat.mul_le_mul_right _ hk
  rw [Nat.succ_mul] at hspan
  have hspan' : Place.elementSpan = 4 * 2 ^ 31 := rfl
  rw [elementAddress, Place.elementBase_eq, BitVec.toNat_ofNat, Nat.mod_eq_of_lt (by omega)]
  omega

/-- The address of an element stands for it. -/
theorem cell?_element (h : m.Addressable) {array : IntArray}
    (harray : m.heap.arrays[k]? = some array)
    (hi : i < array.length) : m.cell? (m.elementAddress k i) = some (.element k i) := by
  obtain ⟨haddress, hin⟩ := h.toNat_elementAddress harray hi
  have hslots := h.apart.of_lt (by decide : 0 < 4) rfl rfl
  have henv := h.apart.of_lt (by decide : 1 < 4) rfl rfl
  have hstack := h.apart.of_lt (by decide : 2 < 4) rfl rfl
  have hheaders := h.apart.of_lt (by decide : 3 < 4) rfl rfl
  have hspan : (k + 1) * Place.elementSpan ≤ m.heap.arrays.size * Place.elementSpan :=
    Nat.mul_le_mul_right _ (Array.getElem?_eq_some_iff.mp harray).1
  rw [Nat.succ_mul] at hspan
  simp only [Nat.succ_mul] at hslots henv hstack hheaders
  have hdiv : (k * Place.elementSpan + 4 * i) / Place.elementSpan = k := by
    rw [Nat.mul_comm, Nat.mul_add_div (by decide), Nat.div_eq_of_lt hin, Nat.add_zero]
  have hmod : (k * Place.elementSpan + 4 * i) % Place.elementSpan = 4 * i := by
    rw [Nat.mul_comm, Nat.mul_add_mod, Nat.mod_eq_of_lt hin]
  unfold cell?
  simp only [haddress]
  rw [if_neg (by omega), if_neg (by omega), if_neg (by omega), if_neg (by omega), if_pos (by omega),
    Nat.add_sub_cancel_left, hdiv, hmod, harray]
  simp [hi]

end Addressable

/-- Only its address stands for an element. -/
theorem eq_of_cell?_element {a : Word} {k i : Nat} (h : m.cell? a = some (.element k i)) :
    a = m.elementAddress k i := by
  unfold cell? at h
  simp only at h
  split at h
  · split at h
    · cases h
    · split at h <;> cases h
  · split at h
    · cases h
    · split at h
      · split at h <;> cases h
      · split at h
        · split at h <;> cases h
        · split at h
          · rename_i hle
            split at h
            · split at h
              · rename_i hin
                cases h
                have hdiv :=
                  Nat.div_add_mod' (a.toNat - m.heap.place.elementBase 0) Place.elementSpan
                have hsum : m.heap.place.elementBase 0 +
                    (a.toNat - m.heap.place.elementBase 0) / Place.elementSpan * Place.elementSpan +
                    4 * ((a.toNat - m.heap.place.elementBase 0) % Place.elementSpan / 4) =
                    a.toNat := by
                  omega
                rw [elementAddress, Place.elementBase_eq, hsum, BitVec.ofNat_toNat,
                  BitVec.setWidth_eq]
              · cases h
            · cases h
          · cases h

/-- What an address stands for hangs on the sizes of things alone. -/
theorem cell?_congr (hslots : m'.slots.size = m.slots.size) (hstack : m'.stack.size = m.stack.size)
    (hplace : m'.heap.place = m.heap.place)
    (hlengths : ∀ k : Nat, (m'.heap.arrays[k]?).map IntArray.length =
      (m.heap.arrays[k]?).map IntArray.length) (a : Word) : m'.cell? a = m.cell? a := by
  have harrays : m'.heap.arrays.size = m.heap.arrays.size := by
    refine Nat.le_antisymm (Nat.le_of_not_lt fun hlt => ?_) (Nat.le_of_not_lt fun hlt => ?_)
    · have hk := hlengths m.heap.arrays.size
      rw [Array.getElem?_eq_getElem hlt, Array.getElem?_eq_none (Nat.le_refl _)] at hk
      cases hk
    · have hk := hlengths m'.heap.arrays.size
      rw [Array.getElem?_eq_getElem hlt, Array.getElem?_eq_none (Nat.le_refl _)] at hk
      cases hk
  unfold cell?
  simp only [hplace, hslots, hstack, harrays]
  have hk := hlengths ((a.toNat - m.heap.place.elementBase 0) / Place.elementSpan)
  generalize m'.heap.arrays[(a.toNat - m.heap.place.elementBase 0) / Place.elementSpan]? =
    after at hk ⊢
  generalize m.heap.arrays[(a.toNat - m.heap.place.elementBase 0) / Place.elementSpan]? =
    before at hk ⊢
  cases after <;> cases before
  · rfl
  · cases hk
  · cases hk
  · rw [Option.map_some, Option.map_some, Option.some.injEq] at hk
    simp only [hk]

/-- A store to an element changes what is read at its address, and nothing else. -/
theorem Addressable.read?_store_element (h : m.Addressable) {k i : Nat} {array : IntArray}
    (harray : m.heap.arrays[k]? = some array) (hi : i < array.length) (w : Word) (size : Size)
    (a : Word) : (m.store (.element k i) .dword w).read? size a =
      if size = .dword ∧ a = m.elementAddress k i then some ((w.setWidth 32).setWidth 64)
      else m.read? size a := by
  have hstored (k' : Nat) : (m.store (.element k i) .dword w).heap.arrays[k']? =
      if k = k' then (m.heap.arrays[k']?).map (·.set i (w.low .dword)) else m.heap.arrays[k']? := by
    rw [store, Array.getElem?_modify]
  have hcell (a : Word) : (m.store (.element k i) .dword w).cell? a = m.cell? a := by
    refine @cell?_congr m (m.store (.element k i) .dword w) rfl rfl rfl (fun k' => ?_) a
    rw [hstored]
    split
    · rw [Option.map_map]
      rfl
    · rfl
  unfold read?
  rw [hcell]
  by_cases ha : a = m.elementAddress k i
  · rw [ha, h.cell?_element harray hi]
    cases size with
    | dword => simp [hstored, harray, IntArray.get_set, Word.low_eq]
    | qword => simp
  · rw [if_neg fun hsame => ha hsame.2]
    cases hc : m.cell? a with
    | none => rfl
    | some cell =>
        cases cell with
        | scalar | ref | limit | stack => rfl
        | elements => cases size <;> rfl
        | length k' =>
            cases size with
            | qword => rfl
            | dword =>
                simp only [hstored]
                split
                · rw [Option.map_map]
                  rfl
                · rfl
        | element k' i' =>
            cases size with
            | qword => rfl
            | dword =>
                simp only [hstored]
                split
                · rename_i heq
                  have hne : i ≠ i' := by
                    rintro rfl
                    exact ha (heq ▸ eq_of_cell?_element hc)
                  rw [Option.map_map]
                  refine congrArg (Option.map · _) (funext fun b => ?_)
                  simp [IntArray.get_set, hne]
                · rfl

end Memory

/-- A store to a cell that can be written. -/
theorem State.storing_of_cell {s : State} {size : Size} {address value : Word} {cell : Cell}
    (hcell : s.memory.cell? address = some cell) (hwritable : Memory.writable cell size = true)
    (k : State → Progress) :
    s.storing size address value k = k { s with memory := s.memory.store cell size value } := by
  rw [State.storing, hcell]
  exact if_pos hwritable

end SlotJit.Machine

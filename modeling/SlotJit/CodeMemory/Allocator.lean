import SlotJit.CodeMemory.Region

/-!
# The code allocator

Hands out regions one after the other and keeps the number of code bytes within a limit.
-/

namespace SlotJit.CodeMemory

/-- Hands out code regions. -/
structure Allocator where
  /-- Greatest number of bytes to hand out, if there is one. -/
  limit : Option Nat := none
  /-- Number of bytes handed out so far. -/
  used : Nat := 0
  /-- Base of the next region. -/
  next : UInt64
deriving DecidableEq

namespace Allocator

/-- Address of the first code region. -/
def codeBase : UInt64 := 0x7f0000000000

/-- The number of bytes handed out once `size` more are, at most the greatest machine word. -/
def requested (a : Allocator) (size : Nat) : Nat := min (a.used + size) (addressCount - 1)

/-- Hand out a region. -/
def allocate (a : Allocator) (size : Nat) : Allocator × Except MemoryError Region :=
  match a.limit with
  | some limit =>
    if limit < a.requested size then (a, .error (.limitExceeded (a.requested size) limit))
    else grant
  | none => grant
where
  /-- Hand out a region that the limit allows, unless it would run past the last address. -/
  grant : Allocator × Except MemoryError Region :=
    match Region.create a.next size with
    | .ok region =>
      if addressCount ≤ a.next.toNat + pageAligned size then (a, .error (.allocationFailed size))
      else
        ({ a with used := a.requested size, next := a.next + UInt64.ofNat (pageAligned size) },
          .ok region)
    | .error e => (a, .error e)

end Allocator

/-- What the allocator hands out starts at its next address, is all zero, of the size asked for, can
be mapped, and keeps to the limit. The next address is then past the pages of the region. -/
structure Allocates (alloc : Allocator) (size : Nat) (region : Region)
    (alloc' : Allocator) : Prop where
  region : region = { base := alloc.next, size }
  pos : 0 < size
  mappable : size < mappableSize
  next : alloc'.next.toNat = alloc.next.toNat + pageAligned size
  fits : alloc.next.toNat + pageAligned size < addressCount
  within : ∀ limit ∈ alloc.limit, alloc.requested size ≤ limit
  used : alloc'.used = alloc.requested size
  limit : alloc'.limit = alloc.limit

theorem allocate_eq_ok_iff {alloc alloc' : Allocator} {size : Nat} {region : Region} :
    alloc.allocate size = (alloc', .ok region) ↔ Allocates alloc size region alloc' := by
  have hsum (hfits : alloc.next.toNat + pageAligned size < addressCount) :
      (alloc.next + UInt64.ofNat (pageAligned size)).toNat =
      alloc.next.toNat + pageAligned size := by
    unfold addressCount at hfits
    rw [UInt64.toNat_add, UInt64.toNat_ofNat']
    omega
  constructor
  · intro h
    obtain ⟨hwithin, hgrant⟩ : (∀ limit ∈ alloc.limit, alloc.requested size ≤ limit) ∧
        Allocator.allocate.grant alloc size = (alloc', .ok region) := by
      unfold Allocator.allocate at h
      grind
    unfold Allocator.allocate.grant at hgrant
    split at hgrant
    · rename_i hcreate
      obtain ⟨hpos, hmappable, rfl⟩ := Region.create_eq_ok_iff.mp hcreate
      split at hgrant
      · cases hgrant
      · rename_i hfits
        cases hgrant
        have hfits := Nat.lt_of_not_le hfits
        exact ⟨rfl, hpos, hmappable, hsum hfits, hfits, hwithin, rfl, rfl⟩
    · cases hgrant
  · rintro ⟨rfl, hpos, hmappable, hnext, hfits, hwithin, hused, hlimit⟩
    have hgrant : Allocator.allocate.grant alloc size =
        (alloc', .ok { base := alloc.next, size }) := by
      have hnext := UInt64.toNat_inj.mp (hnext.trans (hsum hfits).symm)
      simp only [Allocator.allocate.grant, Region.create_eq_ok_iff.mpr ⟨hpos, hmappable, rfl⟩,
        if_neg (Nat.not_le.mpr hfits), ← hlimit, ← hused, ← hnext]
    unfold Allocator.allocate
    split
    · rw [if_neg (Nat.not_lt.mpr (hwithin _ ‹_›)), hgrant]
    · exact hgrant

/-- An allocator that hands nothing out is as it was. -/
theorem eq_of_allocate_eq_error {alloc alloc' : Allocator} {size : Nat} {e : MemoryError}
    (h : alloc.allocate size = (alloc', .error e)) : alloc' = alloc := by
  have hgrant (hgrant : Allocator.allocate.grant alloc size = (alloc', .error e)) :
      alloc' = alloc := by
    unfold Allocator.allocate.grant at hgrant
    grind
  unfold Allocator.allocate at h
  grind

end SlotJit.CodeMemory

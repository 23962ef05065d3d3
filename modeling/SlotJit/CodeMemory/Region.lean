import SlotJit.Bytes

/-!
# Code regions

A region is a run of addresses that holds machine code. It starts out writable and all zero; once it
is executable it is never written again. What was written is kept as patches, so a large region
costs no more than its content. A write changes the bytes that it covers and no others
(`byte_write`).
-/

namespace SlotJit.CodeMemory

/-- Why an operation on code memory is refused. -/
inductive MemoryError where
  | allocationFailed (size : Nat)
  | invalidSize
  | limitExceeded (requested limit : Nat)
  | outOfBounds (offset length size : Nat)
  | notWritable
deriving DecidableEq, Repr

/-- The wording of a memory error. -/
def MemoryError.message : MemoryError → String
  | allocationFailed size => s!"failed to allocate {size} bytes of executable memory"
  | invalidSize => "invalid memory size"
  | limitExceeded requested limit =>
    s!"code limit exceeded: {requested} bytes requested, {limit} allowed"
  | outOfBounds offset length size =>
    s!"write of {length} bytes at offset {offset} exceeds region of {size} bytes"
  | notWritable => "region is already executable"

/-- Memory is mapped in whole pages of this size. -/
def pageSize : Nat := 4096

/-- Number of addresses. -/
def addressCount : Nat := 0x10000000000000000

/-- Sizes from here on cannot be mapped. -/
def mappableSize : Nat := 0x800000000000

/-- Size in whole pages. -/
def pageAligned (size : Nat) : Nat := (size + (pageSize - 1)) / pageSize * pageSize

/-- A run of bytes that was written to a region. -/
structure Patch where
  /-- Offset of the first byte. -/
  offset : Nat
  bytes : Array UInt8
deriving DecidableEq

namespace Patch

/-- The byte at an offset of the region, if the patch holds it. -/
def byte? (p : Patch) (offset : Nat) : Option UInt8 :=
  if p.offset ≤ offset then p.bytes[offset - p.offset]? else none

/-- Whether the patch holds as many bytes from an offset on. -/
def covers (p : Patch) (offset count : Nat) : Bool :=
  p.offset ≤ offset && offset + count ≤ p.offset + p.bytes.size

/-- Replace the bytes from a position on by the given ones. -/
def overwrite (bytes : Array UInt8) (position : Nat) : List UInt8 → Array UInt8
  | [] => bytes
  | b :: rest => overwrite (bytes.setIfInBounds position b) (position + 1) rest

/-- The patch after a write of data that it covers. -/
def change (p : Patch) (offset : Nat) (data : List UInt8) : Patch :=
  { p with bytes := overwrite p.bytes (offset - p.offset) data }

/-- Patches, the latest first, after a write. Data that the latest patch covers changes it, and
other data is a patch of its own. -/
def add (offset : Nat) (data : List UInt8) : List Patch → List Patch
  | [] => [{ offset, bytes := data.toArray }]
  | latest :: older =>
    if latest.covers offset data.length then latest.change offset data :: older
    else { offset, bytes := data.toArray } :: latest :: older

theorem getElem?_overwrite (bytes : Array UInt8) (position : Nat) (data : List UInt8)
    (h : position + data.length ≤ bytes.size) (i : Nat) :
    (overwrite bytes position data)[i]? =
      if position ≤ i ∧ i < position + data.length then data[i - position]? else bytes[i]? := by
  induction data generalizing bytes position with
  | nil => grind [overwrite]
  | cons b rest ih =>
    rw [overwrite, ih _ _ (by simp at h ⊢; omega)]
    grind

/-- A write changes the bytes that it covers and no others. -/
theorem findSome?_add (offset : Nat) (data : List UInt8) (patches : List Patch) (i : Nat) :
    (add offset data patches).findSome? (·.byte? i) =
      if offset ≤ i ∧ i < offset + data.length then data[i - offset]?
      else patches.findSome? (·.byte? i) := by
  cases patches with
  | nil => grind [add, byte?]
  | cons latest older =>
    by_cases h : latest.covers offset data.length
    · simp only [add, h, if_true, List.findSome?_cons]
      simp only [covers, Bool.and_eq_true, decide_eq_true_eq] at h
      have := getElem?_overwrite latest.bytes (offset - latest.offset) data (by omega)
        (i - latest.offset)
      grind [byte?, change]
    · grind [add, byte?]

end Patch

/-- A run of addresses that holds code. -/
structure Region where
  /-- Address of the first byte. -/
  base : UInt64
  size : Nat
  /-- What was written, the latest first; a byte that was never written is zero. -/
  patches : List Patch := []
  executable : Bool := false
deriving DecidableEq

namespace Region

/-- A new writable region. -/
def create (base : UInt64) (size : Nat) : Except MemoryError Region :=
  if size = 0 ∨ addressCount ≤ size + (pageSize - 1) then .error .invalidSize
  else if mappableSize ≤ size then .error (.allocationFailed size)
  else .ok { base, size }

theorem create_eq_ok_iff {base : UInt64} {size : Nat} {region : Region} :
    create base size = .ok region ↔ 0 < size ∧ size < mappableSize ∧ region = { base, size } := by
  have hroom : mappableSize + pageSize ≤ addressCount := by decide
  unfold create
  constructor
  · intro h
    split at h
    · cases h
    · split at h
      · cases h
      · cases h
        exact ⟨by omega, by omega, rfl⟩
  · rintro ⟨hpos, hmappable, rfl⟩
    rw [if_neg (by omega), if_neg (by omega)]

/-- The byte at an offset. -/
def byte (r : Region) (offset : Nat) : UInt8 := (r.patches.findSome? (·.byte? offset)).getD 0

/-- At most as many bytes from an offset on, up to the end of the region. -/
def window (r : Region) (offset count : Nat) : List UInt8 :=
  (List.range (min count (r.size - offset))).map fun i => r.byte (offset + i)

/-- All bytes of the region. -/
def bytes (r : Region) : List UInt8 := r.window 0 r.size

/-- Copy data to an offset. Refused once the region is executable, and if the data does not fit. -/
def write (r : Region) (offset : Nat) (data : List UInt8) : Region × Option MemoryError :=
  if r.executable then (r, some .notWritable)
  else if offset + data.length ≤ r.size then
    ({ r with patches := Patch.add offset data r.patches }, none)
  else (r, some (.outOfBounds offset data.length r.size))

/-- A write succeeds exactly if the region can be written and has the place. -/
theorem write_eq_none_iff {r w : Region} {offset : Nat} {data : List UInt8} :
    r.write offset data = (w, none) ↔ r.executable = false ∧ offset + data.length ≤ r.size ∧
      w = { r with patches := Patch.add offset data r.patches } := by
  unfold write
  cases hflag : r.executable with
  | true => simp
  | false =>
    by_cases hfits : offset + data.length ≤ r.size
    · simp [hfits, eq_comm]
    · simp [hfits]

/-- A write that is refused leaves the region as it was. -/
theorem eq_of_write_eq_some {r w : Region} {offset : Nat} {data : List UInt8} {e : MemoryError}
    (h : r.write offset data = (w, some e)) : w = r := by
  unfold write at h
  split at h
  · exact (Prod.mk.inj h).1.symm
  · split at h
    · cases h
    · exact (Prod.mk.inj h).1.symm

/-- A write leaves a region where it is, and writable. -/
theorem frame_of_write {r w : Region} {offset : Nat} {data : List UInt8}
    (h : r.write offset data = (w, none)) :
    w.base = r.base ∧ w.size = r.size ∧ w.executable = r.executable := by
  obtain ⟨-, -, rfl⟩ := write_eq_none_iff.mp h
  exact ⟨rfl, rfl, rfl⟩

/-- A write changes the bytes that it covers to the data, and no others. -/
theorem byte_write {r w : Region} {offset : Nat} {data : List UInt8}
    (h : r.write offset data = (w, none)) (i : Nat) :
    w.byte i =
      if offset ≤ i ∧ i < offset + data.length then (data[i - offset]?).getD 0 else r.byte i := by
  obtain ⟨-, -, rfl⟩ := write_eq_none_iff.mp h
  simp only [byte, Patch.findSome?_add]
  split <;> rfl

/-- Write a word, the lowest byte first. -/
def writeWord (r : Region) (offset : Nat) (word : UInt64) : Region × Option MemoryError :=
  r.write offset (littleEndian 8 word.toNat)

/-- Make the region executable and read-only. -/
def makeExecutable (r : Region) : Region := { r with executable := true }

/-- The offset of an address in the region. -/
def offset? (r : Region) (address : UInt64) : Option Nat :=
  let offset := (address - r.base).toNat
  if offset < r.size then some offset else none

end Region

end SlotJit.CodeMemory

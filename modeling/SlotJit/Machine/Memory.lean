import SlotJit.Machine.Word
import Std.Data.HashMap

/-!
# Memory seen by compiled code

Compiled code reads and writes the slots of its environment, the environment's stack limit, the top
of the native stack, and the headers and elements of int arrays. All other addresses fault. Where
these things lie is the environment's place, which may be any and is chosen from outside, so that a
number that a program makes up is not the address of an array.
-/

namespace SlotJit.Machine

open SlotJit.X64

/-- A slot: scalars in the lower half, references in the upper half. -/
structure Slot where
  scalar : Word := 0
  ref : Word := 0
deriving DecidableEq, Repr, Inhabited

/-- An int array. Elements that were never written are zero. -/
structure IntArray where
  length : Nat
  written : Std.HashMap Nat (BitVec 32) := {}

namespace IntArray

/-- An element. -/
def get (a : IntArray) (index : Nat) : BitVec 32 := a.written.getD index 0

/-- Change an element. -/
def set (a : IntArray) (index : Nat) (value : BitVec 32) : IntArray :=
  { a with written := a.written.insert index value }

/-- The array of the given elements. -/
def ofList (values : List (BitVec 32)) : IntArray :=
  { length := values.length,
    written := Std.HashMap.ofList (values.zipIdx.map fun (v, i) => (i, v)) }

/-- The elements in order. -/
def toList (a : IntArray) : List (BitVec 32) := (List.range a.length).map a.get

/-- The sum of the elements as a word; those that were never written add nothing. -/
def total (a : IntArray) : Word := a.written.fold (fun sum _ v => sum + v.signExtend 64) 0

end IntArray

/-! ### The address space -/

/-- Where an environment lies in the address space. The areas may lie anywhere; what keeps them
apart is how they are chosen, not their form. -/
structure Place where
  /-- Address of the first slot. -/
  slotBase : Nat
  /-- Address of the environment. -/
  envBase : Nat
  /-- Address of the lowest word of the native stack. -/
  stackBase : Nat
  /-- Address of the first array header. -/
  headerBase : Nat
  /-- Distance between array headers, of which a header fills the first 16 bytes. -/
  headerGap : Nat
  /-- Address of the elements of the first array. -/
  elementStart : Nat
  slotBase_lt : slotBase < 0x10000000000000000
  envBase_pos : 0 < envBase
  envBase_lt : envBase < 0x10000000000000000
  headerBase_pos : 0 < headerBase
  headerGap_ge : 16 ≤ headerGap
deriving DecidableEq, Repr

namespace Place

/-- The place of the environment with a number, where a seed from outside says how far it is
shifted. References show the addresses of array headers and no value shows any other address, so
headers are shifted by one amount and all else by another. -/
def ofSeed (seed : UInt64) (number : Nat) : Place :=
  let headerShift := seed.toNat % 0x80000000
  let hiddenShift := seed.toNat / 0x80000000
  { slotBase := 0x400000000000000 + 16 * hiddenShift
    envBase := 0x800000000000000 + 16 * hiddenShift
    stackBase := 0x1000000000000000 + 16 * hiddenShift
    headerBase := 0x555555554000 + number % 0x200 * 0x1000000000 + 16 * headerShift
    headerGap := 16 * (2 + headerShift % 251)
    elementStart := 0x2000000000000000 + 16 * hiddenShift
    slotBase_lt := by have := seed.toNat_lt; omega
    envBase_pos := by omega
    envBase_lt := by have := seed.toNat_lt; omega
    headerBase_pos := by omega
    headerGap_ge := by omega }

/-- Number of addresses that are kept for the elements of an array. -/
def elementSpan : Nat := 0x200000000

/-- Address of the elements of an array. -/
def elementBase (p : Place) (index : Nat) : Nat := p.elementStart + index * elementSpan

end Place

/-- The arrays of an environment. -/
structure Heap where
  place : Place
  arrays : Array IntArray := #[]

/-- Number of slots above the limit: one for the address to go on at, and the most that arguments
can take. -/
def reservedSlots : Nat := 257

namespace Heap

/-- The reference to an array: the address of its header. -/
def reference (h : Heap) (index : Nat) : Word :=
  BitVec.ofNat 64 (h.place.headerBase + index * h.place.headerGap)

/-- The index of the array that a reference stands for. -/
def index? (h : Heap) (reference : Word) : Option Nat :=
  let offset := reference.toNat - h.place.headerBase
  let gap := h.place.headerGap
  if h.place.headerBase ≤ reference.toNat ∧ offset % gap = 0 ∧ offset / gap < h.arrays.size then
    some (offset / gap)
  else none

/-- The reference to an array leads back to it. -/
theorem index?_reference (h : Heap)
    (hfit : h.place.headerBase + h.arrays.size * h.place.headerGap ≤ 0x10000000000000000)
    {index : Nat} (hi : index < h.arrays.size) : h.index? (h.reference index) = some index := by
  have hgap : 0 < h.place.headerGap := Nat.lt_of_lt_of_le (by decide) h.place.headerGap_ge
  have hlt := Nat.mul_lt_mul_of_pos_right hi hgap
  have haddr : (h.reference index).toNat = h.place.headerBase + index * h.place.headerGap := by
    rw [reference, BitVec.toNat_ofNat, Nat.mod_eq_of_lt (by omega)]
  simp only [index?, haddr, Nat.add_sub_cancel_left, Nat.mul_mod_left,
    Nat.mul_div_cancel _ hgap, Nat.le_add_right, hi, and_self, if_true]

/-- What stands in the place of a heap while it is changed elsewhere. -/
def lent (h : Heap) : Heap := { place := h.place }

/-- Add an array. -/
def alloc (h : Heap) (array : IntArray) : Word × Heap :=
  (h.reference h.arrays.size, { h with arrays := h.arrays.push array })

end Heap

/-- What an address stands for. -/
inductive Cell where
  | scalar (slot : Nat)
  | ref (slot : Nat)
  /-- The stack limit of the environment. -/
  | limit
  | stack (word : Nat)
  /-- The address of an array's elements, in its header. -/
  | elements (array : Nat)
  /-- The length of an array, in its header. -/
  | length (array : Nat)
  | element (array index : Nat)
deriving DecidableEq, Repr

/-- Memory of a run. -/
structure Memory where
  slots : Array Slot
  heap : Heap
  stack : Array Word

namespace Memory

/-- The stack limit: the address of the first slot that frames must not reach. -/
def limit (m : Memory) : Word :=
  BitVec.ofNat 64 (m.heap.place.slotBase + (m.slots.size - reservedSlots) * 16)

/-- What an address stands for. -/
def cell? (m : Memory) (address : Word) : Option Cell :=
  let a := address.toNat
  let place := m.heap.place
  if place.slotBase ≤ a ∧ a < place.slotBase + 16 * m.slots.size then
    let offset := a - place.slotBase
    if offset % 16 = 0 then some (.scalar (offset / 16))
    else if offset % 16 = 8 then some (.ref (offset / 16))
    else none
  else if a = place.envBase then some .limit
  else if place.stackBase ≤ a ∧ a < place.stackBase + 8 * m.stack.size then
    if (a - place.stackBase) % 8 = 0 then some (.stack ((a - place.stackBase) / 8)) else none
  else if place.headerBase ≤ a ∧ a < place.headerBase + m.heap.arrays.size * place.headerGap then
    let offset := a - place.headerBase
    let index := offset / place.headerGap
    match offset % place.headerGap with
    | 0 => some (.elements index)
    | 8 => some (.length index)
    | _ => none
  else if place.elementBase 0 ≤ a then
    let offset := a - place.elementBase 0
    let array := offset / Place.elementSpan
    let position := offset % Place.elementSpan
    match m.heap.arrays[array]? with
    | some values =>
      if position % 4 = 0 ∧ position / 4 < values.length then some (.element array (position / 4))
      else none
    | none => none
  else none

/-- The part of a word that an operand size covers, with zeros above. -/
def part (size : Size) (w : Word) : Word :=
  match size with
  | .dword => w.lowHalf
  | .qword => w

/-- A word after a value of an operand size was stored to it. -/
def merged (size : Size) (old new : Word) : Word :=
  match size with
  | .dword => old.withLowHalf new
  | .qword => new

/-- Read a value, with zeros above. -/
def read? (m : Memory) (size : Size) (address : Word) : Option Word :=
  match m.cell? address, size with
  | some (.scalar i), _ => (m.slots[i]?).map fun s => part size s.scalar
  | some (.ref i), _ => (m.slots[i]?).map fun s => part size s.ref
  | some .limit, _ => some (part size m.limit)
  | some (.stack i), _ => (m.stack[i]?).map (part size)
  | some (.elements k), .qword => some (BitVec.ofNat 64 (m.heap.place.elementBase k))
  | some (.length k), .dword => (m.heap.arrays[k]?).map fun a => BitVec.ofNat 64 a.length
  | some (.element k i), .dword => (m.heap.arrays[k]?).map fun a => (a.get i).setWidth 64
  | _, _ => none

/-- Whether a value of an operand size can be stored to a cell. The limit and array headers are
never written. -/
def writable : Cell → Size → Bool
  | .scalar _, _ | .ref _, _ | .stack _, _ => true
  | .element _ _, .dword => true
  | _, _ => false

/-- Store a value to a cell. -/
def store (m : Memory) (cell : Cell) (size : Size) (value : Word) : Memory :=
  match cell with
  | .scalar i =>
    { m with slots := m.slots.modify i fun s => { s with scalar := merged size s.scalar value } }
  | .ref i =>
      { m with slots := m.slots.modify i fun s => { s with ref := merged size s.ref value } }
  | .stack i => { m with stack := m.stack.modify i (merged size · value) }
  | .element k i =>
    { m with heap.arrays := m.heap.arrays.modify k (·.set i (value.low .dword)) }
  | .limit | .elements _ | .length _ => m

end Memory

end SlotJit.Machine

import SlotJit.X64.Instr

/-!
# Machine words

Words are bit vectors, and their arithmetic is done by machine integers. Every operation here comes
with the equation that says what it is on bit vectors.
-/

namespace SlotJit.Machine

open SlotJit.X64

/-- A machine word. -/
abbrev Word := BitVec 64

/-- Width of an operand size. -/
abbrev width : Size → Nat
  | .dword => 32
  | .qword => 64

namespace Word

/-- The sum of two words. -/
def add (a b : Word) : Word := (UInt64.ofBitVec a + UInt64.ofBitVec b).toBitVec

theorem add_eq (a b : Word) : add a b = a + b := rfl

/-- The difference of two words. -/
def sub (a b : Word) : Word := (UInt64.ofBitVec a - UInt64.ofBitVec b).toBitVec

theorem sub_eq (a b : Word) : sub a b = a - b := rfl

/-- The product of two words. -/
def mul (a b : Word) : Word := (UInt64.ofBitVec a * UInt64.ofBitVec b).toBitVec

theorem mul_eq (a b : Word) : mul a b = a * b := rfl

/-- A word with the value of a narrower number. -/
def ofInt32 (n : Int32) : Word := n.toInt64.toUInt64.toBitVec

theorem ofInt32_eq (n : Int32) : ofInt32 n = BitVec.ofInt 64 n.toInt := by
  show n.toInt64.toBitVec = _
  rw [Int32.toBitVec_toInt64]
  rfl

/-- The factor of an index register. -/
def ofScale : Scale → Word
  | .one => 1
  | .two => 2
  | .four => 4
  | .eight => 8

theorem ofScale_eq (s : Scale) : ofScale s = BitVec.ofNat 64 s.factor := by cases s <;> rfl

/-- The part of a word that an operand size covers. -/
def low (size : Size) (w : Word) : BitVec (width size) :=
  match size with
  | .dword => (UInt64.ofBitVec w).toUInt32.toBitVec
  | .qword => w

theorem low_eq (size : Size) (w : Word) : low size w = w.setWidth (width size) := by
  cases size with
  | dword => exact UInt64.toBitVec_toUInt32 _
  | qword => exact (BitVec.setWidth_eq w).symm

/-- The low half of a word, with zeros above. -/
def lowHalf (w : Word) : Word := (UInt64.ofBitVec w).toUInt32.toUInt64.toBitVec

theorem lowHalf_eq (w : Word) : lowHalf w = (w.setWidth 32).setWidth 64 := by
  simp [lowHalf]

/-- A word with its low half replaced. -/
def withLowHalf (old new : Word) : Word :=
  ((UInt64.ofBitVec old &&& 0xffffffff00000000) |||
    (UInt64.ofBitVec new).toUInt32.toUInt64).toBitVec

theorem getLsbD_upperHalf :
    ∀ i < 64, (0xffffffff00000000#64).getLsbD i = decide (32 ≤ i) := by decide

theorem getLsbD_withLowHalf (old new : Word) (i : Nat) (hi : i < 64) :
    (withLowHalf old new).getLsbD i = if i < 32 then new.getLsbD i else old.getLsbD i := by
  have hmask := getLsbD_upperHalf i hi
  by_cases h : i < 32
  · have hle : ¬ 32 ≤ i := by omega
    simp [withLowHalf, hmask, h, hle]
    exact fun _ => hi
  · have hle : 32 ≤ i := by omega
    simp [withLowHalf, hmask, h, hle]

end Word

/-! ### Arithmetic on the part of a word that an operand size covers -/

variable {size : Size}

/-- The sum of two parts. -/
def sum (a b : BitVec (width size)) : BitVec (width size) :=
  match size with
  | .dword => (UInt32.ofBitVec a + UInt32.ofBitVec b).toBitVec
  | .qword => Word.add a b

theorem sum_eq (a b : BitVec (width size)) : sum a b = a + b := by
  cases size <;> rfl

/-- The difference of two parts. -/
def difference (a b : BitVec (width size)) : BitVec (width size) :=
  match size with
  | .dword => (UInt32.ofBitVec a - UInt32.ofBitVec b).toBitVec
  | .qword => Word.sub a b

theorem difference_eq (a b : BitVec (width size)) : difference a b = a - b := by
  cases size <;> rfl

/-- The product of two parts. -/
def product (a b : BitVec (width size)) : BitVec (width size) :=
  match size with
  | .dword => (UInt32.ofBitVec a * UInt32.ofBitVec b).toBitVec
  | .qword => Word.mul a b

theorem product_eq (a b : BitVec (width size)) : product a b = a * b := by
  cases size <;> rfl

/-- The signed value of a part. -/
def signed (a : BitVec (width size)) : Int :=
  match size with
  | .dword => (Int32.ofBitVec a).toInt
  | .qword => (Int64.ofBitVec a).toInt

theorem signed_eq (a : BitVec (width size)) : signed a = a.toInt := by
  cases size <;> rfl

/-- A constant of 32 bits as a part, extended with its sign. -/
def constant (size : Size) (n : Int32) : BitVec (width size) :=
  match size with
  | .dword => n.toBitVec
  | .qword => Word.ofInt32 n

theorem constant_eq (size : Size) (n : Int32) :
    constant size n = BitVec.ofInt (width size) n.toInt := by
  cases size with
  | dword => exact (BitVec.ofInt_toInt).symm
  | qword => exact Word.ofInt32_eq n

end SlotJit.Machine

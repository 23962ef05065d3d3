import Mathlib
import SlotJit.Bytecode.Instr
import SlotJit.Machine.Memory
import SlotJit.Symbol

/-!
# Values, operations and runs

What bytecode and slot code compute with. A frame is a sequence of slots; a value is read from a
slot and stored to a slot at its type, and a store keeps the part of the slot that it does not
cover.

An `Operation` is what both kinds of code do with values other than moving and comparing them.
Integer arithmetic is fixed. Everything else is left to an `Environment`: floating point arithmetic
is any function, and calls and array operations are events that the environment answers, or traps,
by the whole history of events so far. Two runs that perform the same events with the same operands
therefore get the same answers, and nothing more is known of them.

## Main results

* `Frame.get_set_same`, `Frame.get_set_of_ne`, `Frame.set_get`: reading and storing.
* `Operation.answered_perform`: an operation on arguments of its types gives a result of its type or
  traps.
-/

namespace SlotJit.Semantics

open SlotJit.Machine (Word Slot)

/-! ### Values -/

/-- A value with its type. Floating point numbers are bit patterns and references addresses. -/
inductive Value where
  | int (v : BitVec 32)
  | long (v : BitVec 64)
  | float (bits : BitVec 32)
  | double (bits : BitVec 64)
  | ref (address : BitVec 64)
deriving DecidableEq

namespace Value

/-- The type of a value. -/
def type : Value → ValueType
  | int _ => .int
  | long _ => .long
  | float _ => .float
  | double _ => .double
  | ref _ => .ref

/-- The values of each type. -/
theorem exists_of_type {v : Value} {ty : ValueType} (h : v.type = ty) :
    match ty with
    | .int => ∃ x, v = int x
    | .long => ∃ x, v = long x
    | .float => ∃ x, v = float x
    | .double => ∃ x, v = double x
    | .ref => ∃ x, v = ref x := by
  subst h
  cases v <;> exact ⟨_, rfl⟩

/-- The value of a type in the low bits of a word. -/
def ofBits (ty : ValueType) (w : Word) : Value :=
  match ty with
  | .int => int (w.setWidth 32)
  | .long => long w
  | .float => float (w.setWidth 32)
  | .double => double w
  | .ref => ref w

/-- The bits of a value, with zeros above. -/
def bits : Value → Word
  | int v | float v => v.setWidth 64
  | long v | double v | ref v => v

/-- The type of a value made from bits. -/
@[simp] theorem type_ofBits (ty : ValueType) (w : Word) : (ofBits ty w).type = ty := by
  cases ty <;> rfl

/-- The value of a type in a slot: references are in the upper half, all else in the lower. -/
def ofSlot (ty : ValueType) (s : Slot) : Value :=
  ofBits ty (match ty with | .ref => s.ref | _ => s.scalar)

/-- The type of a value read from a slot. -/
@[simp] theorem type_ofSlot (ty : ValueType) (s : Slot) : (ofSlot ty s).type = ty :=
  type_ofBits ty _

/-- A slot after a value was stored to it. Values of 32 bits keep the bits above them. -/
def store (v : Value) (s : Slot) : Slot :=
  match v with
  | int x | float x => { s with scalar := s.scalar.extractLsb' 32 32 ++ x }
  | long x | double x => { s with scalar := x }
  | ref x => { s with ref := x }

/-- The low half of a word that was put together from halves. -/
theorem setWidth_append (high low : BitVec 32) : (high ++ low : BitVec 64).setWidth 32 = low := by
  ext i hi
  rw [BitVec.getElem_setWidth, BitVec.getLsbD_append, if_pos hi, BitVec.getLsbD_eq_getElem hi]

/-- A word is its two halves. -/
theorem append_halves (w : Word) : (w.extractLsb' 32 32 ++ w.setWidth 32 : BitVec 64) = w := by
  ext i hi
  rw [BitVec.getElem_append]
  split
  · simp [BitVec.getLsbD_eq_getElem hi]
  · rename_i h
    have hsub : 32 + (i - 32) = i := by omega
    simp [hsub, BitVec.getLsbD_eq_getElem hi]

/-- A value that was stored is read back. -/
@[simp] theorem ofSlot_store (v : Value) (s : Slot) : ofSlot v.type (v.store s) = v := by
  cases v <;> simp [ofSlot, store, ofBits, type, setWidth_append]

/-- Storing what was read changes nothing. -/
@[simp] theorem store_ofSlot (ty : ValueType) (s : Slot) : (ofSlot ty s).store s = s := by
  cases ty <;> simp [ofSlot, store, ofBits, append_halves]

end Value

end SlotJit.Semantics

namespace SlotJit

open SlotJit.Semantics

/-- The value of a literal. -/
def Literal.value : Literal → Value
  | int v => .int v.toBitVec
  | long v => .long v.toBitVec
  | float bits => .float bits.toBitVec
  | double bits => .double bits.toBitVec
  | null => .ref 0

/-- The type of a literal. -/
@[simp] theorem Literal.type_value (l : Literal) : l.value.type = l.valueType := by
  cases l <;> rfl

end SlotJit

namespace SlotJit.Semantics

open SlotJit.Machine (Word Slot)

/-! ### Frames -/

/-- The slots of a frame. -/
abbrev Frame := Nat → Slot

namespace Frame

/-- The value of a type in a slot. -/
def get (f : Frame) (ty : ValueType) (index : Nat) : Value := .ofSlot ty (f index)

/-- The frame after a value was stored to a slot. -/
def set (f : Frame) (index : Nat) (v : Value) : Frame :=
  fun i => if i = index then v.store (f i) else f i

/-- The type of a value of a frame. -/
@[simp] theorem type_get (f : Frame) (ty : ValueType) (index : Nat) : (f.get ty index).type = ty :=
  Value.type_ofSlot ty _

/-- Other slots of a frame stay. -/
theorem set_of_ne (f : Frame) {i index : Nat} (v : Value) (h : i ≠ index) :
    f.set index v i = f i := if_neg h

/-- A slot that was set has its value. -/
@[simp] theorem get_set_same (f : Frame) (index : Nat) (v : Value) :
    (f.set index v).get v.type index = v := by
  simp [get, set]

/-- Other values of a frame stay. -/
theorem get_set_of_ne (f : Frame) (ty : ValueType) {i index : Nat} (v : Value) (h : i ≠ index) :
    (f.set index v).get ty i = f.get ty i := by
  rw [get, get, set_of_ne f v h]

/-- Storing what a slot holds changes nothing. -/
@[simp] theorem set_get (f : Frame) (ty : ValueType) (index : Nat) :
    f.set index (f.get ty index) = f := by
  funext i
  by_cases h : i = index <;> simp [get, set, h]

end Frame

/-! ### Integers and conditions -/

/-- An integer operation on words of a width; `none` for a division by zero. Shifts go by the low
bits of the right operand, as many as the width needs. -/
def applyIntOp {w : Nat} (op : IntOp) (a b : BitVec w) : Option (BitVec w) :=
  match op with
  | .add => some (a + b)
  | .sub => some (a - b)
  | .mul => some (a * b)
  | .div => if b = 0 then none else some (a.sdiv b)
  | .rem => if b = 0 then none else some (a.srem b)
  | .shl => some (a <<< (b.toNat % w))
  | .shr => some (a.sshiftRight (b.toNat % w))
  | .ushr => some (a >>> (b.toNat % w))
  | .and => some (a &&& b)
  | .or => some (a ||| b)
  | .xor => some (a ^^^ b)

/-- An int cut down to a narrow type and extended again, with its sign or, for characters, zeros. -/
def narrowInt (target : Narrow) (v : BitVec 32) : BitVec 32 :=
  match target with
  | .byte => (v.setWidth 8).signExtend 32
  | .char => (v.setWidth 16).setWidth 32
  | .short => (v.setWidth 16).signExtend 32

/-- Whether a condition holds of two values that compare in a certain way. -/
def conditionHolds : Condition → Ordering → Bool
  | .eq, o => o.isEq
  | .ne, o => o.isNe
  | .lt, o => o.isLT
  | .ge, o => o.isGE
  | .gt, o => o.isGT
  | .le, o => o.isLE

/-- How two words compare as signed numbers. -/
def compareSigned {w : Nat} (a b : BitVec w) : Ordering := compare a.toInt b.toInt

/-- The int that stands for the result of a compare: minus one, zero or one. -/
def orderValue : Ordering → Value
  | .lt => .int (-1)
  | .eq => .int 0
  | .gt => .int 1

/-- The order of two numbers is an int. -/
@[simp] theorem type_orderValue (o : Ordering) : (orderValue o).type = .int := by
  cases o <;> rfl

/-! ### Operations -/

/-- What a run asks of the world around it. -/
inductive Event where
  | call (id : SymbolId) (native : Bool) (args : List Value)
  | newIntArray (length : BitVec 32)
  | arrayLen (array : Word)
  | intArrayGet (array : Word) (index : BitVec 32)
  | intArraySet (array : Word) (index value : BitVec 32)
deriving DecidableEq

/-- What is not fixed by the code: floating point arithmetic, and callees and arrays, which answer
to the history of events, the last one first. Where they do not answer, the run traps. -/
structure Environment where
  singleArith : FloatOp → BitVec 32 → BitVec 32 → BitVec 32
  doubleArith : FloatOp → BitVec 64 → BitVec 64 → BitVec 64
  /-- Conversions from and to floating point, on bits. -/
  convert : Conversion → Word → Word
  answer : List Event → Option Word

/-- What is done with values other than moving and comparing them. -/
inductive Operation where
  | arith (ty : Integral) (op : IntOp)
  | neg (ty : Integral)
  | floatArith (ty : Floating) (op : FloatOp)
  | floatNeg (ty : Floating)
  | convert (conversion : Conversion)
  | call (id : SymbolId) (native : Bool) (params : List ValueType) (result : Option ValueType)
  | newIntArray
  | arrayLen
  | intArrayGet
  | intArraySet
deriving DecidableEq

/-- What an operation leads to, with the history after it. -/
inductive Reply where
  | done (result : Option Value) (history : List Event)
  | trap (history : List Event)
  /-- The arguments make no sense. -/
  | stuck

/-- Let the environment answer an event. -/
def Environment.ask (env : Environment) (history : List Event) (event : Event)
    (result : Option ValueType) : Reply :=
  match env.answer (event :: history) with
  | some bits => .done (result.map fun ty => .ofBits ty bits) (event :: history)
  | none => .trap (event :: history)

namespace Operation

/-- The types of the arguments. -/
def params : Operation → List ValueType
  | arith ty op => [ty.valueType, if op.isShift then .int else ty.valueType]
  | neg ty => [ty.valueType]
  | floatArith ty _ => [ty.valueType, ty.valueType]
  | floatNeg ty => [ty.valueType]
  | convert conversion => [conversion.sourceType]
  | call _ _ params _ => params
  | newIntArray => [.int]
  | arrayLen => [.ref]
  | intArrayGet => [.ref, .int]
  | intArraySet => [.ref, .int, .int]

/-- The type of the result, if there is one. -/
def result : Operation → Option ValueType
  | arith ty _ | neg ty => some ty.valueType
  | floatArith ty _ | floatNeg ty => some ty.valueType
  | convert conversion => some conversion.targetType
  | call _ _ _ result => result
  | newIntArray => some .ref
  | arrayLen | intArrayGet => some .int
  | intArraySet => none

/-- Integer arithmetic. -/
def arithReply {w : Nat} (wrap : BitVec w → Value) (op : IntOp) (a b : BitVec w)
    (history : List Event) : Reply :=
  match applyIntOp op a b with
  | some v => .done (some (wrap v)) history
  | none => .trap history

/-- Perform an operation on arguments. -/
def perform (env : Environment) (history : List Event) : Operation → List Value → Reply
  | arith .int op, [.int a, .int b] => arithReply .int op a b history
  | arith .long op, [.long a, .long b] => arithReply .long op a b history
  | arith .long op, [.long a, .int b] => arithReply .long op a (b.setWidth 64) history
  | neg .int, [.int a] => .done (some (.int (-a))) history
  | neg .long, [.long a] => .done (some (.long (-a))) history
  | floatArith .float op, [.float a, .float b] =>
    .done (some (.float (env.singleArith op a b))) history
  | floatArith .double op, [.double a, .double b] =>
    .done (some (.double (env.doubleArith op a b))) history
  | floatNeg .float, [.float a] => .done (some (.float (a ^^^ .intMin 32))) history
  | floatNeg .double, [.double a] => .done (some (.double (a ^^^ .intMin 64))) history
  | convert .widen, [.int a] => .done (some (.long (a.signExtend 64))) history
  | convert .wrap, [.long a] => .done (some (.int (a.setWidth 32))) history
  | convert (.narrow target), [.int a] => .done (some (.int (narrowInt target a))) history
  | convert conversion, [a] =>
    .done (some (.ofBits conversion.targetType (env.convert conversion a.bits))) history
  | call id native _ result, args => env.ask history (.call id native args) result
  | newIntArray, [.int length] => env.ask history (.newIntArray length) (some .ref)
  | arrayLen, [.ref array] => env.ask history (.arrayLen array) (some .int)
  | intArrayGet, [.ref array, .int index] =>
    env.ask history (.intArrayGet array index) (some .int)
  | intArraySet, [.ref array, .int index, .int value] =>
    env.ask history (.intArraySet array index value) none
  | _, _ => .stuck

/-- What an operation on arguments of its types leads to: a value of its result type, or a trap. -/
inductive Answered (op : Operation) : Reply → Prop
  | done {result : Option Value} (history : List Event) (h : result.map Value.type = op.result) :
      Answered op (.done result history)
  | trap (history : List Event) : Answered op (.trap history)

/-- An answer of the environment answers its operation. -/
theorem answered_ask (env : Environment) (history : List Event) (event : Event) (op : Operation) :
    Answered op (env.ask history event op.result) := by
  unfold Environment.ask
  split
  · refine .done _ ?_
    rw [Option.map_map]
    cases op.result <;> simp
  · exact .trap _

/-- Integer arithmetic answers with its type, or traps. -/
theorem answered_arithReply {w : Nat} {wrap : BitVec w → Value} {ty : Integral}
    (hwrap : ∀ v, (wrap v).type = ty.valueType) (op : IntOp) (a b : BitVec w)
    (history : List Event) : Answered (.arith ty op) (arithReply wrap op a b history) := by
  unfold arithReply
  split
  · exact .done _ (by rw [Option.map_some, hwrap]; rfl)
  · exact .trap _

/-- Arguments of given types, one by one. -/
theorem exists_of_types {args : List Value} {ty : ValueType} {tys : List ValueType}
    (h : args.map Value.type = ty :: tys) :
    ∃ v rest, args = v :: rest ∧ v.type = ty ∧ rest.map Value.type = tys := by
  obtain ⟨v, rest, rfl, hv, hrest⟩ := List.map_eq_cons_iff.mp h
  exact ⟨v, rest, rfl, hv, hrest⟩

/-- An operation on arguments of its types does not get stuck. -/
theorem answered_perform (env : Environment) (history : List Event) (op : Operation)
    {args : List Value} (h : args.map Value.type = op.params) :
    Answered op (op.perform env history args) := by
  cases op with
  | call id native params result => exact answered_ask env history _ _
  | arith ty op =>
      obtain ⟨a, rest, rfl, ha, hrest⟩ := exists_of_types h
      obtain ⟨b, rest, rfl, hb, hrest⟩ := exists_of_types hrest
      obtain rfl := List.map_eq_nil_iff.mp hrest
      cases ty with
      | int =>
          obtain ⟨a, rfl⟩ := Value.exists_of_type ha
          have hb : b.type = .int := by rw [hb]; split <;> rfl
          obtain ⟨b, rfl⟩ := Value.exists_of_type hb
          exact answered_arithReply (fun _ => rfl) op _ _ _
      | long =>
          obtain ⟨a, rfl⟩ := Value.exists_of_type ha
          by_cases hshift : op.isShift
          · rw [if_pos hshift] at hb
            obtain ⟨b, rfl⟩ := Value.exists_of_type hb
            exact answered_arithReply (fun _ => rfl) op _ _ _
          · rw [if_neg hshift] at hb
            obtain ⟨b, rfl⟩ := Value.exists_of_type hb
            exact answered_arithReply (fun _ => rfl) op _ _ _
  | neg ty =>
      obtain ⟨a, rest, rfl, ha, hrest⟩ := exists_of_types h
      obtain rfl := List.map_eq_nil_iff.mp hrest
      cases ty <;>
      · obtain ⟨a, rfl⟩ := Value.exists_of_type ha
        exact .done _ rfl
  | floatArith ty op =>
      obtain ⟨a, rest, rfl, ha, hrest⟩ := exists_of_types h
      obtain ⟨b, rest, rfl, hb, hrest⟩ := exists_of_types hrest
      obtain rfl := List.map_eq_nil_iff.mp hrest
      cases ty <;>
      · obtain ⟨a, rfl⟩ := Value.exists_of_type ha
        obtain ⟨b, rfl⟩ := Value.exists_of_type hb
        exact .done _ rfl
  | floatNeg ty =>
      obtain ⟨a, rest, rfl, ha, hrest⟩ := exists_of_types h
      obtain rfl := List.map_eq_nil_iff.mp hrest
      cases ty <;>
      · obtain ⟨a, rfl⟩ := Value.exists_of_type ha
        exact .done _ rfl
  | convert conversion =>
      obtain ⟨a, rest, rfl, ha, hrest⟩ := exists_of_types h
      obtain rfl := List.map_eq_nil_iff.mp hrest
      cases conversion with
      | widen | wrap | narrow =>
          obtain ⟨a, rfl⟩ := Value.exists_of_type ha
          exact .done _ rfl
      | toFloating | toIntegral | resize =>
          exact .done _ (by rw [Option.map_some, Value.type_ofBits]; rfl)
  | newIntArray | arrayLen =>
      obtain ⟨a, rest, rfl, ha, hrest⟩ := exists_of_types h
      obtain rfl := List.map_eq_nil_iff.mp hrest
      obtain ⟨a, rfl⟩ := Value.exists_of_type ha
      exact answered_ask env history _ _
  | intArrayGet =>
      obtain ⟨a, rest, rfl, ha, hrest⟩ := exists_of_types h
      obtain ⟨b, rest, rfl, hb, hrest⟩ := exists_of_types hrest
      obtain rfl := List.map_eq_nil_iff.mp hrest
      obtain ⟨a, rfl⟩ := Value.exists_of_type ha
      obtain ⟨b, rfl⟩ := Value.exists_of_type hb
      exact answered_ask env history _ _
  | intArraySet =>
      obtain ⟨a, rest, rfl, ha, hrest⟩ := exists_of_types h
      obtain ⟨b, rest, rfl, hb, hrest⟩ := exists_of_types hrest
      obtain ⟨c, rest, rfl, hc, hrest⟩ := exists_of_types hrest
      obtain rfl := List.map_eq_nil_iff.mp hrest
      obtain ⟨a, rfl⟩ := Value.exists_of_type ha
      obtain ⟨b, rfl⟩ := Value.exists_of_type hb
      obtain ⟨c, rfl⟩ := Value.exists_of_type hc
      exact answered_ask env history _ _

end Operation

/-! ### Runs -/

/-- How a run ends. -/
inductive Outcome where
  | returned (value : Option Value)
  /-- An operation trapped on its arguments. -/
  | trapped (op : Operation) (args : List Value)
  /-- Control went past the last instruction. -/
  | ended
deriving DecidableEq

/-- What a step of a machine leads to; `ω` are the ways in which it can halt. -/
inductive Step (ω σ : Type) where
  | next (s : σ)
  | halt (outcome : ω) (s : σ)
  /-- The code makes no sense in this state. -/
  | stuck

/-- A number of steps, or as many as it takes to come to a halt. -/
def run {ω σ : Type} (step : σ → Step ω σ) : Nat → σ → Step ω σ
  | 0, s => .next s
  | n + 1, s =>
    match step s with
    | .next s' => run step n s'
    | .halt outcome s' => .halt outcome s'
    | .stuck => .stuck

section Run

variable {ω σ : Type} {step : σ → Step ω σ}

/-- No steps. -/
@[simp] theorem run_zero (s : σ) : run step 0 s = .next s := rfl

/-- A step and then the others. -/
theorem run_succ_of_next {s s' : σ} (h : step s = .next s') (n : Nat) :
    run step (n + 1) s = run step n s' := by
  rw [run, h]

/-- A step that halts is the last. -/
theorem run_succ_of_halt {s s' : σ} {outcome : ω} (h : step s = .halt outcome s') (n : Nat) :
    run step (n + 1) s = .halt outcome s' := by
  rw [run, h]

/-- A run can be cut anywhere before it halts. -/
theorem run_add {m : Nat} {s s' : σ} (h : run step m s = .next s') (n : Nat) :
    run step (m + n) s = run step n s' := by
  induction m generalizing s with
  | zero =>
      rw [run_zero, Step.next.injEq] at h
      rw [h, Nat.zero_add]
  | succ m ih =>
      rw [run] at h
      rw [Nat.add_right_comm, run]
      cases hstep : step s with
      | next s₁ =>
          rw [hstep] at h
          exact ih h
      | halt outcome s₁ =>
          rw [hstep] at h
          cases h
      | stuck =>
          rw [hstep] at h
          cases h

/-- A run that cannot go on stays where it is. -/
theorem run_of_le_of_ne_next {m n : Nat} {s : σ} (h : ∀ s', run step m s ≠ .next s') (hle : m ≤ n) :
    run step n s = run step m s := by
  induction m generalizing n s with
  | zero => exact absurd rfl (h s)
  | succ m ih =>
      obtain ⟨n, rfl⟩ := Nat.exists_eq_add_of_le' (Nat.le_trans (Nat.le_add_left 1 m) hle)
      rw [run] at h
      rw [run, run]
      cases hstep : step s with
      | next s₁ =>
          rw [hstep] at h
          exact ih h (Nat.le_of_succ_le_succ hle)
      | halt | stuck => rfl

/-- A run that has come to a halt stays there. -/
theorem run_of_le_of_halt {m n : Nat} {s s' : σ} {outcome : ω}
    (h : run step m s = .halt outcome s') (hle : m ≤ n) : run step n s = .halt outcome s' := by
  rw [run_of_le_of_ne_next (fun _ hnext => nomatch h.symm.trans hnext) hle, h]

end Run

end SlotJit.Semantics

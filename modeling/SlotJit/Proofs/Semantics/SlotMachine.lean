import SlotJit.Proofs.Semantics.Values
import SlotJit.Tables.Context

/-!
# The slot machine

What slot code does. The machine has a frame, the condition flags of the last compare, the history
of events, and the index of the next instruction. An instruction reads its operands at the types it
works on. Moves and jumps keep the flags; nothing is known of them after any other instruction but a
compare.
-/

namespace SlotJit.Semantics

open SlotJit.Ir SlotJit.Tables

/-- The value of an operand at a type. -/
def readOperand (frame : Frame) : Operand → ValueType → Option Value
  | .slot index, ty => some (frame.get ty index)
  | .int value, .int => some (.int value.toInt32.toBitVec)
  | .int value, .long => some (.long value.toBitVec)
  | .int value, .ref => some (.ref value.toBitVec)
  | .float bits, .float => some (.float bits.toBitVec)
  | .double bits, .double => some (.double bits.toBitVec)
  | _, _ => none

/-- The values of operands at types. -/
def readOperands (frame : Frame) : List Operand → List ValueType → Option (List Value)
  | [], [] => some []
  | a :: args, ty :: tys =>
    match readOperand frame a ty, readOperands frame args tys with
    | some v, some vs => some (v :: vs)
    | _, _ => none
  | _, _ => none

/-- How two values of a type compare. -/
def compareValues : Value → Value → Option Ordering
  | .int a, .int b => some (compareSigned a b)
  | .long a, .long b | .ref a, .ref b => some (compareSigned a b)
  | _, _ => none

/-- The operation of an instruction with the operands it is performed on. A call is performed at the
types of the method it names. -/
def operation? (context : Context) : Kind → List Operand → Option (Operation × List Operand)
  | .arith ty op, args => some (.arith ty op, args)
  | .neg ty, args => some (.neg ty, args)
  | .floatArith ty op, args => some (.floatArith ty op, args)
  | .floatNeg ty, args => some (.floatNeg ty, args)
  | .convert conversion, args => some (.convert conversion, args)
  | .callStatic, .symbol id :: args => call id false args
  | .callNative, .symbol id :: args => call id true args
  | .newIntArray, args => some (.newIntArray, args)
  | .arrayLen, args => some (.arrayLen, args)
  | .intArrayGet, args => some (.intArrayGet, args)
  | .intArraySet, args => some (.intArraySet, args)
  | _, _ => none
where
  /-- The call of a method. -/
  call (id : SymbolId) (native : Bool) (args : List Operand) :
      Option (Operation × List Operand) :=
    (context.method? id).map fun callee =>
      (.call id native callee.signature.paramTypes callee.signature.resultType, args)

/-- The machine without its position. -/
structure Core where
  frame : Frame
  /-- How the values of the last compare are ordered, as far as known. -/
  flags : Option Ordering
  /-- What happened so far, the last event first. -/
  history : List Event

/-- What an instruction leads to; `target` says where a branch goes. -/
inductive Exit (τ : Type) where
  | fall (core : Core)
  | goto (target : τ) (core : Core)
  | halt (outcome : Outcome) (core : Core)
  | stuck

/-- Store a result to a destination. -/
def Core.deliver (core : Core) : Option Value → Option Operand → Option Core
  | some v, some (.slot index) => some { core with frame := core.frame.set index v }
  | none, none => some core
  | _, _ => none

/-- Perform an operation on operands. -/
def Core.operate {τ : Type} (core : Core) (env : Environment) (op : Operation)
    (args : List Operand) (dst : Option Operand) : Exit τ :=
  match readOperands core.frame args op.params with
  | none => .stuck
  | some values =>
    match op.perform env core.history values with
    | .done result history =>
      match Core.deliver { core with flags := none, history } result dst with
      | some core => .fall core
      | none => .stuck
    | .trap history => .halt (.trapped op values) { core with history }
    | .stuck => .stuck

/-- Branch on a condition, if one is given. -/
def Core.branch {τ : Type} (core : Core) (condition : Option Condition) (target : τ) : Exit τ :=
  match condition with
  | none => .goto target core
  | some condition =>
    match core.flags with
    | some order => if conditionHolds condition order then .goto target core else .fall core
    | none => .stuck

/-- Execute an instruction that is not a jump. -/
def Core.execute {τ : Type} (core : Core) (context : Context) (env : Environment) (inst : Inst) :
    Exit τ :=
  match inst.kind, inst.dst, inst.args with
  | .move ty, dst, [src] =>
    match readOperand core.frame src ty with
    | some v =>
      match core.deliver (some v) dst with
      | some core => .fall core
      | none => .stuck
    | none => .stuck
  | .compare ty, none, [a, b] =>
    match readOperand core.frame a ty.valueType, readOperand core.frame b ty.valueType with
    | some x, some y =>
      match compareValues x y with
      | some order => .fall { core with flags := some order }
      | none => .stuck
    | _, _ => .stuck
  | .ret none, none, [] => .halt (.returned none) core
  | .ret (some ty), none, [a] =>
    match readOperand core.frame a ty with
    | some v => .halt (.returned (some v)) core
    | none => .stuck
  | kind, dst, args =>
    match operation? context kind args with
    | some (op, args) => core.operate env op args dst
    | none => .stuck

namespace SlotMachine

/-- A state of the slot machine. -/
structure State where
  index : Nat
  core : Core

/-- The state a body is entered in. -/
def start (frame : Frame) : State :=
  { index := 0, core := { frame, flags := none, history := [] } }

/-- Execute an instruction; the target of a branch is an index. -/
def execute (context : Context) (env : Environment) (core : Core) (inst : Inst) : Exit Nat :=
  match inst.kind, inst.args with
  | .jump, [.branch target] => core.branch none target.toNat
  | .jumpIf condition, [.branch target, .flags] => core.branch (some condition) target.toNat
  | _, _ => core.execute context env inst

/-- One step. An index right after the code is where control ends. -/
def step (context : Context) (env : Environment) (body : Body) (s : State) : Step Outcome State :=
  match body.code[s.index]? with
  | none => if s.index = body.code.length then .halt .ended s else .stuck
  | some inst =>
    match execute context env s.core inst with
    | .fall core => .next { index := s.index + 1, core }
    | .goto target core => .next { index := target, core }
    | .halt outcome core => .halt outcome { s with core }
    | .stuck => .stuck

end SlotMachine

/-- All slots that an instruction names are below a bound. -/
structure InFrame (count : Nat) (inst : Inst) : Prop where
  dst : ∀ index, inst.dst = some (.slot index) → index < count
  args : ∀ index, .slot index ∈ inst.args → index < count

/-- An argument that is a slot is in the frame. -/
theorem InFrame.argument {count : Nat} {inst : Inst} (hin : InFrame count inst) {place : Nat}
    {a : Operand} (h : inst.args[place]? = some a) : ∀ index, a = .slot index → index < count := by
  rintro index rfl
  exact hin.args index (List.mem_of_getElem? h)

end SlotJit.Semantics

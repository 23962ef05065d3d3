import SlotJit.Bytecode.Stream
import SlotJit.Proofs.Semantics.Values
import SlotJit.Tables.Context

/-!
# The stack machine

A reference machine for bytecode. It has a position, local variables, an operand stack of typed
values and the history of events. Local variables are the first slots of a frame; no other slot is
read or written.

An instruction is read from the bytes at the position. Where the code makes no sense, such as on a
stack of other types, the machine is stuck.
-/

namespace SlotJit.Semantics

open SlotJit.Bytecode SlotJit.Tables

/-- A method as the stack machine sees it. -/
structure Routine where
  context : Context
  constants : ConstantPool
  maxLocals : Nat
  code : List UInt8

/-- The routine of a method of a class. -/
def Routine.of (context : Context) (owner : ClassTable) (method : Method) : Routine :=
  { context, constants := owner.constants, maxLocals := method.maxLocals.toNat,
    code := method.bytecode }

/-- The instruction at a position of some code. -/
def fetch? (code : List UInt8) (pc : Nat) : Option Located :=
  match code.drop pc with
  | [] => none
  | byte :: rest => do
    let opcode ← Opcode.ofByte? byte
    if opcode.width = 0 ∨ rest.length + 1 < opcode.width then none
    else some ⟨pc, opcode, rest.take (opcode.width - 1)⟩

namespace StackMachine

/-- A state of the stack machine. -/
structure State where
  pc : Nat
  locals : Frame
  /-- The operand stack, the top first. -/
  stack : List Value
  /-- What happened so far, the last event first. -/
  history : List Event

/-- The state a method is entered in. -/
def start (locals : Frame) : State := { pc := 0, locals, stack := [], history := [] }

/-- Take arguments of the given types from the stack; the last one is on top. -/
def popArgs (params : List ValueType) (stack : List Value) : Option (List Value × List Value) :=
  let args := (stack.take params.length).reverse
  if args.map Value.type = params then some (args, stack.drop params.length) else none

/-- The constant of an index of the pool, if it has as many words as expected. -/
def constant? (constants : ConstantPool) (index : UInt16) (wide : Bool) : Option Literal :=
  match constants.get? index, wide with
  | some (.int value), false => some (.int value)
  | some (.float bits), false => some (.float bits)
  | some (.long value), true => some (.long value)
  | some (.double bits), true => some (.double bits)
  | _, _ => none

/-- The call that an index of the pool stands for: the static method it names. -/
def call? (r : Routine) (index : UInt16) : Option Operation :=
  match r.constants.get? index with
  | some (.methodRef member) =>
    match r.context.findMethod? member.className member.name member.descriptor with
    | some callee =>
      if callee.access.isStatic then
        some (.call callee.id callee.access.isNative callee.signature.paramTypes
          callee.signature.resultType)
      else none
    | none => none
  | _ => none

/-- The operation that an instruction performs on the values on top of the stack. -/
def operation? (r : Routine) : Instr → Option Operation
  | .binary ty op => some (.arith ty op)
  | .negate ty => some (.neg ty)
  | .floatBinary ty op => some (.floatArith ty op)
  | .floatNegate ty => some (.floatNeg ty)
  | .convert conversion => some (.convert conversion)
  | .invokeStatic index => call? r index
  -- The only element type is int.
  | .newArray code => if code = 10 then some .newIntArray else none
  | .arrayLength => some .arrayLen
  | .arrayLoad => some .intArrayGet
  | .arrayStore => some .intArraySet
  | _ => none

/-- How the values that a branch compares are ordered, and the stack without them. -/
def compared? : Comparison → List Value → Option (Ordering × List Value)
  | .zero, .int a :: rest => some (compareSigned a 0, rest)
  | .ints, .int b :: .int a :: rest => some (compareSigned a b, rest)
  | .refs, .ref b :: .ref a :: rest => some (compareSigned a b, rest)
  | .null, .ref a :: rest => some (compareSigned a 0, rest)
  | _, _ => none

/-- Go to a distance from the instruction. -/
def jump (s : State) (displacement : Int) : Step Outcome State :=
  if 0 ≤ s.pc + displacement then .next { s with pc := (s.pc + displacement).toNat } else .stuck

/-- Perform an operation on the values on top of the stack and go on. -/
def operate (env : Environment) (op : Operation) (s : State) (next : Nat) : Step Outcome State :=
  match popArgs op.params s.stack with
  | none => .stuck
  | some (args, stack) =>
    match op.perform env s.history args with
    | .done result history =>
      .next { s with pc := next, stack := result.toList ++ stack, history }
    | .trap history => .halt (.trapped op args) { s with history }
    | .stuck => .stuck

/-- Execute an instruction; `next` is the position after it. -/
def execute (r : Routine) (env : Environment) (s : State) (next : Nat) (instr : Instr) :
    Step Outcome State :=
  match instr, s.stack with
  | .nop, stack => .next { s with pc := next, stack }
  | .push l, stack => .next { s with pc := next, stack := l.value :: stack }
  | .pushConstant index wide, stack =>
    match constant? r.constants index wide with
    | some l => .next { s with pc := next, stack := l.value :: stack }
    | none => .stuck
  | .load ty index, stack =>
    if index + ty.words ≤ r.maxLocals then
      .next { s with pc := next, stack := s.locals.get ty index :: stack }
    else .stuck
  | .store ty index, v :: stack =>
    if index + ty.words ≤ r.maxLocals ∧ v.type = ty then
      .next { s with pc := next, locals := s.locals.set index v, stack }
    else .stuck
  | .increment index delta, stack =>
    if index < r.maxLocals then
      match s.locals.get .int index with
      | .int v =>
        .next { s with
          pc := next, locals := s.locals.set index (.int (v + delta.toInt32.toBitVec)), stack }
      | _ => .stuck
    else .stuck
  | .pop, v :: stack => if v.type.isWide then .stuck else .next { s with pc := next, stack }
  | .pop2, v :: stack =>
    if v.type.isWide then .next { s with pc := next, stack }
    else
      match stack with
      | w :: stack => if w.type.isWide then .stuck else .next { s with pc := next, stack }
      | [] => .stuck
  | .dup, v :: stack =>
    if v.type.isWide then .stuck else .next { s with pc := next, stack := v :: v :: stack }
  | .dupX1, v :: w :: stack =>
    if v.type.isWide || w.type.isWide then .stuck
    else .next { s with pc := next, stack := v :: w :: v :: stack }
  | .dup2, v :: stack =>
    if v.type.isWide then .next { s with pc := next, stack := v :: v :: stack }
    else
      match stack with
      | w :: stack =>
        if w.type.isWide then .stuck
        else .next { s with pc := next, stack := v :: w :: v :: w :: stack }
      | [] => .stuck
  | .swap, v :: w :: stack =>
    if v.type.isWide || w.type.isWide then .stuck
    else .next { s with pc := next, stack := w :: v :: stack }
  | .compareLong, .long b :: .long a :: stack =>
    .next { s with pc := next, stack := orderValue (compareSigned a b) :: stack }
  | .branch comparison condition displacement, stack =>
    match compared? comparison stack with
    | some (order, stack) =>
      if conditionHolds condition order then jump { s with stack } displacement
      else .next { s with pc := next, stack }
    | none => .stuck
  | .jump displacement, _ => jump s displacement
  | .ret none, _ => .halt (.returned none) s
  | .ret (some ty), v :: _ => if v.type = ty then .halt (.returned (some v)) s else .stuck
  | instr, _ =>
    match operation? r instr with
    | some op => operate env op s next
    | none => .stuck

/-- One step. A position right after the code is where control ends. -/
def step (r : Routine) (env : Environment) (s : State) : Step Outcome State :=
  match fetch? r.code s.pc with
  | some l => execute r env s l.next l.instr
  | none => if s.pc = r.code.length then .halt .ended s else .stuck

end StackMachine

end SlotJit.Semantics

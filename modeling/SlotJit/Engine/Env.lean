import SlotJit.Engine.Value
import SlotJit.Engine.Vm
import SlotJit.Machine.Run

/-!
# Environments

An environment is what compiled code runs on: an array of slots and the int arrays made so far.
Slots are zero at first and are never cleared, so a run sees what earlier ones left. A call checks
its arguments, writes them into the first frame, and enters the code through the entry stub.
-/

namespace SlotJit.Engine

open SlotJit.CodeMemory SlotJit.Machine SlotJit.Tables

/-- Slots and arrays. -/
structure Env where
  slots : Array Slot
  heap : Heap

/-- Why a call does not happen or its result is refused. -/
inductive CallError where
  | methodNotFound (method : String)
  | notCompiled (method : String)
  | argumentCount (method : String) (expected got : Nat)
  | argumentType (method : String) (index : Nat) (expected got : ValueType)
  | stackOverflow (method : String) (needed available : Nat)
  | unexpectedReturn (method : String) (expected : ValueType) (got : Option ValueType)
  | invalidReference (address : UInt64)
deriving DecidableEq

/-- The wording of a call error. -/
def CallError.message : CallError → String
  | methodNotFound method => "method " ++ method ++ " not found"
  | notCompiled method => method ++ " has no compiled code"
  | argumentCount method expected got => method ++ s!": expected {expected} arguments, got {got}"
  | argumentType method index expected got =>
    method ++ s!": argument {index} should be " ++ expected.name ++ ", got " ++ got.name
  | stackOverflow method needed available =>
    method ++ s!": frame of {needed} slots does not fit in a stack of {available}"
  | unexpectedReturn method expected got =>
    method ++ " returns " ++ (got.map ValueType.name).getD "void" ++ ", not " ++ expected.name
  | invalidReference address =>
    "0x" ++ Text.hex address.toNat ++ " is not a reference allocated by this environment"

/-- How a call ends. -/
inductive CallOutcome where
  /-- The result, or nothing from a method without one. -/
  | returned (value : Option Value)
  | refused (error : CallError)
  | trapped (signal : Signal)
  /-- An argument lies beyond the slots. -/
  | outOfSlots
  /-- The budget of steps did not suffice. -/
  | exhausted

/-- The end of a call, with what it left. -/
structure CallResult where
  outcome : CallOutcome
  env : Env
  /-- Lines that host functions wrote, in order. -/
  lines : List String := []

/-- Fewest slots that an environment has. -/
def leastSlots : Nat := reservedSlots + 2

/-- Words of native stack that a call is given. -/
def nativeStackWords : Nat := 64

namespace Env

/-- A new environment at a place. -/
def create (vm : Vm) (place : Place) : Env :=
  { slots := Array.replicate (max vm.config.stackSlots leastSlots) {}, heap := { place } }

/-- Slots for frames, the first slot apart. -/
def stackSlots (env : Env) : Nat := env.slots.size - reservedSlots - 1

/-- Make an int array. -/
def newIntArray (env : Env) (values : List Int32) : UInt64 × Env :=
  let (ref, heap) := env.heap.alloc (.ofList (values.map Int32.toBitVec))
  (UInt64.ofBitVec ref, { env with heap })

/-- Whether a reference is null or one of this environment's arrays. -/
def knows (env : Env) (address : UInt64) : Bool :=
  address == 0 || (env.heap.index? address.toBitVec).isSome

/-- The elements of an array. -/
def intArray (env : Env) (address : UInt64) : Except CallError (List Int32) :=
  match (env.heap.index? address.toBitVec).bind (env.heap.arrays[·]?) with
  | some array => .ok (array.toList.map Int32.ofBitVec)
  | none => .error (.invalidReference address)

/-- The environment in one line. -/
def summary (env : Env) : String :=
  s!"Env \x7b slots: {env.slots.size}, arrays: {env.heap.arrays.size} \x7d"

/-- Check the types and references of arguments, counting from an index. -/
def checkArguments (env : Env) (name : String) (index : Nat) :
    List (Value × ValueType) → Except CallError Unit
  | [] => .ok ()
  | (value, expected) :: rest => do
    if value.valueType ≠ expected then
      throw (.argumentType name index expected value.valueType)
    if let .ref address := value then
      if !env.knows address then throw (.invalidReference address)
    env.checkArguments name (index + 1) rest

/-- Check that a method can be called with the given arguments. -/
def checkCall (env : Env) (name : String) (method : Method) (args : List Value) :
    Except CallError Region := do
  let some code := method.code | throw (.notCompiled name)
  let types := method.signature.paramTypes
  if args.length ≠ types.length then
    throw (.argumentCount name types.length args.length)
  env.checkArguments name 0 (args.zip types)
  if env.stackSlots < method.body.frameSlots then
    throw (.stackOverflow name method.body.frameSlots env.stackSlots)
  return code

/-- A slot with an argument in it: a reference goes to the upper half and anything else fills the
lower half. -/
def putArgument (slot : Slot) (value : Value) : Slot :=
  match value with
  | .ref address => { slot with ref := address.toBitVec }
  | _ => { slot with scalar := value.bits.toBitVec }

/-- Write arguments into the first frame, which starts at slot one. Stops at the first that lies
beyond the slots and tells whether all were written. -/
def writeArguments (slots : Array Slot) : List (Value × Nat) → Array Slot × Bool
  | [] => (slots, true)
  | (value, index) :: rest =>
    if 1 + index < slots.size then
      writeArguments (slots.modify (1 + index) (putArgument · value)) rest
    else (slots, false)

/-- The state in which the entry stub is called. -/
def entryState (slots : Array Slot) (heap : Heap) (code : Region) : State :=
  let stack := (Array.replicate nativeStackWords (0 : Word)).setIfInBounds (nativeStackWords - 1)
    callerAddress
  let s : State :=
    { regs := Vector.replicate 16 0, xmms := Vector.replicate 16 0, rip := stubBase.toBitVec,
      memory := { slots, heap, stack } }
  let place := heap.place
  let s := s.setReg .rdi (BitVec.ofNat 64 place.slotBase)
  let s := s.setReg .rsi code.base.toBitVec
  let s := s.setReg .rdx (BitVec.ofNat 64 place.envBase)
  s.setReg .rsp (BitVec.ofNat 64 (place.stackBase + 8 * (nativeStackWords - 1)))

/-- What a finished state leaves of the environment and the lines. -/
def leave (outcome : CallOutcome) (s : State) : CallResult :=
  { outcome, env := { slots := s.memory.slots, heap := s.memory.heap }, lines := s.lines.reverse }

/-- Call a method of a virtual machine, with the functions that native methods are bound to and a
budget of machine steps. -/
def call (env : Env) (vm : Vm) (natives : Hosts) (budget : Nat) (method : Method)
    (args : List Value) : CallResult :=
  match env.checkCall (vm.qualifiedName method.id) method args with
  | .error e => { outcome := .refused e, env }
  | .ok code =>
    match writeArguments env.slots (args.zip method.signature.paramLocals) with
    | (slots, false) => { outcome := .outOfSlots, env := { env with slots } }
    | (slots, true) =>
      match run (hosts natives) vm.code budget (entryState slots env.heap code) with
      | .finished s =>
        let bits := UInt64.ofBitVec (s.reg .rax)
        leave (.returned (method.signature.resultType.map (Value.ofBits · bits))) s
      | .trapped signal s => leave (.trapped signal) s
      | .exhausted s => leave .exhausted s

/-- Call a method that must return a value of the given type. -/
def callFor (env : Env) (vm : Vm) (natives : Hosts) (budget : Nat) (expected : ValueType)
    (method : Method) (args : List Value) : CallResult :=
  let result := env.call vm natives budget method args
  match result.outcome with
  | .returned value =>
    let got := value.map Value.valueType
    if got = some expected then result
    else
      let error := .unexpectedReturn (vm.qualifiedName method.id) expected got
      { result with outcome := .refused error }
  | _ => result

/-- Find a method by the full name of its class, its name and its descriptor, and call it. -/
def invoke (env : Env) (vm : Vm) (natives : Hosts) (budget : Nat)
    (className name descriptor : String) (args : List Value) : CallResult :=
  match vm.findMethod? className name descriptor with
  | some method => env.call vm natives budget method args
  | none => { outcome := .refused (.methodNotFound (className ++ "." ++ name ++ descriptor)), env }

end Env

end SlotJit.Engine

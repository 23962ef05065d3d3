import SlotJit.Lowering.Error
import SlotJit.Lowering.OperandStack
import SlotJit.Tables.Context
import Std.Data.HashMap

/-!
# Lowering state

The state that lowering carries from instruction to instruction, and its operations on the symbolic
stack, the local variables and block boundaries.

Stack entries that live across a block boundary travel in merge slots, one for each depth. Before a
branch, and before control falls into a branch target, every entry is moved to the merge slot of its
depth, so that all ways into a block agree on where its stack is. These moves keep the condition
flags.
-/

namespace SlotJit.Lowering

open SlotJit.Ir SlotJit.Tables

/-- What lowering knows of the method and its surroundings. -/
structure Site where
  context : Context
  constants : ConstantPool
  maxLocals : UInt16
  maxStack : UInt16
  /-- Positions that branches go to. -/
  targets : Std.HashSet Nat

namespace Site

/-- The slot that carries the stack entry of a depth across block boundaries. -/
def mergeSlot (site : Site) (depth : Nat) : Operand := .slot (site.maxLocals.toNat + depth)

/-- Index of the slot of a temporary. -/
def tmpIndex (site : Site) (index : Nat) : Nat :=
  site.maxLocals.toNat + site.maxStack.toNat + index

/-- The slot of a temporary. -/
def tmpSlot (site : Site) (index : Nat) : Operand := .slot (site.tmpIndex index)

end Site

/-- An emitted instruction. A branch names the position it goes to until every position has its
instruction. -/
inductive Emitted where
  | inst (inst : Inst)
  | branch (condition : Option Condition) (pc target : Nat)

namespace Emitted

/-- What the instruction does. -/
def kind : Emitted → Kind
  | inst i => i.kind
  | branch none .. => .jump
  | branch (some condition) .. => .jumpIf condition

end Emitted

/-- The state of lowering between two instructions. -/
structure State where
  stack : OperandStack := {}
  code : Array Emitted := #[]
  /-- Index of the first instruction emitted for each position. -/
  positions : Std.HashMap Nat Nat := {}
  /-- Types of the stack, the bottom first, on entry to a branch target. -/
  entryTypes : Std.HashMap Nat (List ValueType) := {}

/-- A step of lowering. -/
abbrev Lower := StateT State (Except Error)

/-- Add an instruction. -/
def emit (inst : Inst) : Lower Unit :=
  modify fun s => { s with code := s.code.push (.inst inst) }

/-- Copy a value of a type. -/
def emitMove (ty : ValueType) (dst src : Operand) : Lower Unit :=
  emit { kind := .move ty, dst := some dst, args := [src] }

/-! ### Temporaries -/

/-- Take a temporary. -/
def takeTmp : Lower Nat :=
  modifyGet fun s => let (index, stack) := s.stack.alloc; (index, { s with stack })

/-- Give back the temporary that an entry holds, if it holds one. -/
def releaseEntry (e : Entry) : Lower Unit := do
  let s ← get
  match s.stack.releaseEntry e with
  | some stack => set { s with stack }
  | none => throw .releasedTwice

/-! ### Stack entries -/

/-- Push an entry, within the declared depth. -/
def push (site : Site) (pc : Nat) (e : Entry) : Lower Unit := do
  let s ← get
  if site.maxStack.toNat < s.stack.words + e.words then throw (.stackOverflow pc site.maxStack)
  set { s with stack := s.stack.push e }

/-- Pop an entry. -/
def pop (pc : Nat) : Lower Entry := do
  let s ← get
  match s.stack.pop? with
  | some (e, stack) =>
    if s.stack.words < e.words then throw .depthUnderflow
    set { s with stack }
    return e
  | none => throw (.stackUnderflow pc)

/-- Push a new temporary of a type. -/
def pushTmp (site : Site) (pc : Nat) (ty : ValueType) : Lower Operand := do
  let index ← takeTmp
  push site pc (.tmp index ty)
  return site.tmpSlot index

/-- The type of an entry, which must not be the flags. -/
def typeOf (pc : Nat) (e : Entry) : Lower ValueType :=
  match e.valueType? with
  | some ty => return ty
  | none => throw (.flagsAsValue pc)

/-- Check the type of an entry. -/
def checkType (pc : Nat) (e : Entry) (expected : ValueType) : Lower Unit := do
  let ty ← typeOf pc e
  if ty ≠ expected then throw (.typeMismatch pc expected ty)

/-- The operand that stands for an entry. -/
def operandOf (site : Site) (pc : Nat) (e : Entry) : Lower Operand :=
  match e with
  | .literal (.int value) => return .int value.toInt64
  | .literal (.long value) => return .int value
  | .literal (.float bits) => return .float bits
  | .literal (.double bits) => return .double bits
  | .literal .null => return .int 0
  | .localVar index _ => return .slot index
  | .merge depth _ => return site.mergeSlot depth
  | .tmp index _ => return site.tmpSlot index
  | .flags => throw (.flagsAsValue pc)

/-- The operand for an entry that is used up; its temporary is free again. -/
def consume (site : Site) (pc : Nat) (e : Entry) : Lower Operand := do
  let operand ← operandOf site pc e
  releaseEntry e
  return operand

/-- Pop an entry of a type and use it up. -/
def popTyped (site : Site) (pc : Nat) (expected : ValueType) : Lower Operand := do
  let e ← pop pc
  checkType pc e expected
  consume site pc e

/-- Pop an entry of one word. -/
def popWord (pc : Nat) : Lower Entry := do
  let e ← pop pc
  let ty ← typeOf pc e
  if ty.isWide then throw (.typeMismatch pc .int ty)
  return e

/-- A second entry with the same value. A temporary is copied, so that each entry has its own. -/
def duplicate (site : Site) (pc : Nat) (e : Entry) : Lower Entry :=
  match e with
  | .tmp index ty => do
    let copy ← takeTmp
    emitMove ty (site.tmpSlot copy) (site.tmpSlot index)
    return .tmp copy ty
  | .flags => throw (.flagsAsValue pc)
  | e => return e

/-- Replace each entry, the bottom one first; `f` is given the depth of the entry. -/
def replaceEntries (f : Nat → Entry → Lower Entry) : Lower Unit := do
  let entries := (← get).stack.entries.reverse
  let entries ← entries.zipIdx.mapM fun (e, depth) => f depth e
  modify fun s => { s with stack.entries := entries.reverse }

/-! ### Local variables -/

/-- Check that a value of a type fits at a local variable index. -/
def checkLocal (site : Site) (pc : Nat) (index : Nat) (ty : ValueType) : Lower Unit :=
  if site.maxLocals.toNat < index + ty.words then
    throw (.localOutOfRange pc index site.maxLocals)
  else return ()

/-- Copy the entries that still read a local variable into temporaries, so that a write to the
variable does not change them. -/
def saveLocal (site : Site) (index : Nat) : Lower Unit :=
  replaceEntries fun _ e =>
    match e with
    | .localVar source ty =>
      if source = index then do
        let tmp ← takeTmp
        emitMove ty (site.tmpSlot tmp) (.slot index)
        return .tmp tmp ty
      else return e
    | _ => return e

/-! ### Block boundaries -/

/-- Move a merge entry away from the slot of another depth, which is about to be overwritten. -/
def unhook (site : Site) (depth : Nat) (e : Entry) : Lower Entry :=
  match e with
  | .merge source ty =>
    if source = depth then return e
    else do
      let tmp ← takeTmp
      emitMove ty (site.tmpSlot tmp) (site.mergeSlot source)
      return .tmp tmp ty
  | _ => return e

/-- Move an entry to the merge slot of its depth. -/
def settle (site : Site) (pc : Nat) (depth : Nat) (e : Entry) : Lower Entry := do
  let ty ← typeOf pc e
  if e ≠ .merge depth ty then
    let src ← consume site pc e
    emitMove ty (site.mergeSlot depth) src
  return .merge depth ty

/-- Move every stack entry to the merge slot of its depth. -/
def flush (site : Site) (pc : Nat) : Lower Unit := do
  replaceEntries (unhook site)
  replaceEntries (settle site pc)

/-- The types on the stack, the bottom first. -/
def stackTypes (pc : Nat) : Lower (List ValueType) := do
  (← get).stack.entries.reverse.mapM (typeOf pc)

/-- Note the stack that a branch target is entered with; all ways in must agree. -/
def recordEntry (pc target : Nat) : Lower Unit := do
  let types ← stackTypes pc
  let s ← get
  match s.entryTypes[target]? with
  | some known => if known ≠ types then throw (.stackMismatch pc)
  | none => set { s with entryTypes := s.entryTypes.insert target types }

/-- Fall into a branch target. -/
def enterTarget (site : Site) (pc : Nat) : Lower Unit := do
  flush site pc
  recordEntry pc pc

/-- Whether the flags of the last compare are still there: nothing but moves came after it. -/
def State.flagsIntact (s : State) : Bool :=
  match s.code.findRev? (fun i => !i.kind.isMove) with
  | some i => match i.kind with | .compare _ => true | _ => false
  | none => false

end SlotJit.Lowering

import SlotJit.Lowering.State

/-!
# Lowering a method

Turns bytecode into slot code. Literals and reads of local variables stay on the symbolic stack
until an instruction uses them; results go to temporaries.
-/

namespace SlotJit.Lowering

open SlotJit.Bytecode SlotJit.Ir SlotJit.Tables

/-- Whether control can go on to the next instruction. -/
inductive Flow where
  | next
  | transfer
deriving DecidableEq

/-! ### Instructions -/

/-- Push the value of an operation on two values. -/
def lowerBinary (site : Site) (pc : Nat) (kind : Kind) (left right result : ValueType) :
    Lower Unit := do
  let b ← popTyped site pc right
  let a ← popTyped site pc left
  let dst ← pushTmp site pc result
  emit { kind, dst := some dst, args := [a, b] }

/-- Push the value of an operation on one value. -/
def lowerUnary (site : Site) (pc : Nat) (kind : Kind) (source result : ValueType) : Lower Unit := do
  let a ← popTyped site pc source
  let dst ← pushTmp site pc result
  emit { kind, dst := some dst, args := [a] }

/-- Compare two operands. -/
def emitCompare (ty : Comparand) (a b : Operand) : Lower Unit :=
  emit { kind := .compare ty, args := [a, b] }

/-- Branch, on a condition if one is given. -/
def emitBranch (site : Site) (pc : Nat) (condition : Option Condition) (displacement : Int) :
    Lower Unit := do
  flush site pc
  let target := (pc + displacement).toNat
  recordEntry pc target
  modify fun s => { s with code := s.code.push (.branch condition pc target) }

/-- Leave the flags that a branch asks for. A branch on the result of a long compare uses the flags
of that compare. -/
def lowerComparison (site : Site) (pc : Nat) : Comparison → Lower Unit
  | .zero => do
    let e ← pop pc
    if e = .flags then
      if !(← get).flagsIntact then throw (.flagsClobbered pc)
    else
      checkType pc e .int
      let a ← consume site pc e
      emitCompare .int a (.int 0)
  | .ints => do
    let b ← popTyped site pc .int
    let a ← popTyped site pc .int
    emitCompare .int a b
  | .refs => do
    let b ← popTyped site pc .ref
    let a ← popTyped site pc .ref
    emitCompare .ref a b
  | .null => do
    let a ← popTyped site pc .ref
    emitCompare .ref a (.int 0)

/-- Push a constant of the pool. -/
def lowerConstant (site : Site) (pc : Nat) (index : UInt16) (wide : Bool) : Lower Unit :=
  match site.constants.get? index, wide with
  | some (.int value), false => push site pc (.literal (.int value))
  | some (.float bits), false => push site pc (.literal (.float bits))
  | some (.long value), true => push site pc (.literal (.long value))
  | some (.double bits), true => push site pc (.literal (.double bits))
  | _, _ => throw (.badConstant pc index)

/-- Pop into a local variable. -/
def lowerStore (site : Site) (pc : Nat) (ty : ValueType) (index : Nat) : Lower Unit := do
  checkLocal site pc index ty
  let e ← pop pc
  checkType pc e ty
  if e ≠ .localVar index ty then
    saveLocal site index
    let src ← consume site pc e
    emitMove ty (.slot index) src

/-- Add to an int in a local variable. -/
def lowerIncrement (site : Site) (pc : Nat) (index : Nat) (delta : Int8) : Lower Unit := do
  checkLocal site pc index .int
  saveLocal site index
  emit {
    kind := .arith .int .add, dst := some (.slot index),
    args := [.slot index, .int delta.toInt64] }

/-- Call a static method. -/
def lowerInvoke (site : Site) (pc : Nat) (index : UInt16) : Lower Unit := do
  let some (.methodRef member) := site.constants.get? index | throw (.badConstant pc index)
  let some callee := site.context.findMethod? member.className member.name member.descriptor
    | throw (.unresolvedMethod pc member)
  if !callee.access.isStatic then throw (.notStatic pc member)
  let args ← callee.signature.paramTypes.reverse.mapM (popTyped site pc)
  let kind : Kind := if callee.access.isNative then .callNative else .callStatic
  let dst ← callee.signature.resultType.mapM (pushTmp site pc)
  emit { kind, dst, args := .symbol callee.id :: args.reverse }

/-- The code of the element type `int`. -/
def intElementCode : UInt8 := 10

/-- Lower one instruction. -/
def lowerInstr (site : Site) (l : Located) : Lower Flow :=
  let pc := l.pc
  match l.instr with
  | .nop => return .next
  | .push value => do push site pc (.literal value); return .next
  | .pushConstant index wide => do lowerConstant site pc index wide; return .next
  | .load ty index => do
    checkLocal site pc index ty
    push site pc (.localVar index ty)
    return .next
  | .store ty index => do lowerStore site pc ty index; return .next
  | .increment index delta => do lowerIncrement site pc index delta; return .next
  | .pop => do
    releaseEntry (← popWord pc)
    return .next
  | .pop2 => do
    let e ← pop pc
    discard (typeOf pc e)
    releaseEntry e
    if e.words = 1 then releaseEntry (← popWord pc)
    return .next
  | .dup => do
    let e ← popWord pc
    let copy ← duplicate site pc e
    push site pc e
    push site pc copy
    return .next
  | .dupX1 => do
    let e₁ ← popWord pc
    let e₂ ← popWord pc
    let copy ← duplicate site pc e₁
    push site pc copy
    push site pc e₂
    push site pc e₁
    return .next
  | .dup2 => do
    let e₁ ← pop pc
    if e₁.words = 2 then
      let copy ← duplicate site pc e₁
      push site pc e₁
      push site pc copy
    else
      discard (typeOf pc e₁)
      let e₂ ← popWord pc
      let copy₂ ← duplicate site pc e₂
      let copy₁ ← duplicate site pc e₁
      push site pc e₂
      push site pc e₁
      push site pc copy₂
      push site pc copy₁
    return .next
  | .swap => do
    let e₁ ← popWord pc
    let e₂ ← popWord pc
    push site pc e₁
    push site pc e₂
    return .next
  | .binary ty op => do
    let right := if op.isShift then .int else ty.valueType
    lowerBinary site pc (.arith ty op) ty.valueType right ty.valueType
    return .next
  | .negate ty => do lowerUnary site pc (.neg ty) ty.valueType ty.valueType; return .next
  | .floatBinary ty op => do
    lowerBinary site pc (.floatArith ty op) ty.valueType ty.valueType ty.valueType
    return .next
  | .floatNegate ty => do
    lowerUnary site pc (.floatNeg ty) ty.valueType ty.valueType
    return .next
  | .convert conversion => do
    lowerUnary site pc (.convert conversion) conversion.sourceType conversion.targetType
    return .next
  | .compareLong => do
    let b ← popTyped site pc .long
    let a ← popTyped site pc .long
    emitCompare .long a b
    push site pc .flags
    return .next
  | .branch comparison condition displacement => do
    lowerComparison site pc comparison
    emitBranch site pc (some condition) displacement
    return .next
  | .jump displacement => do
    emitBranch site pc none displacement
    return .transfer
  | .ret ty => do
    let arg ← ty.mapM (popTyped site pc)
    emit { kind := .ret ty, args := arg.toList }
    return .transfer
  | .invokeStatic index => do lowerInvoke site pc index; return .next
  | .newArray code => do
    if code ≠ intElementCode then throw (.unsupportedArrayType pc code)
    lowerUnary site pc .newIntArray .int .ref
    return .next
  | .arrayLength => do lowerUnary site pc .arrayLen .ref .int; return .next
  | .arrayLoad => do
    lowerBinary site pc .intArrayGet .ref .int .int
    return .next
  | .arrayStore => do
    let value ← popTyped site pc .int
    let index ← popTyped site pc .int
    let array ← popTyped site pc .ref
    emit { kind := .intArraySet, args := [array, index, value] }
    return .next
  | .unsupported => throw (.unsupportedOpcode pc l.opcode.mnemonic)

/-- Lower the instruction at a position, entering it as a branch target if it is one. After an
instruction that never goes on, the stack is the one that the next position is known to be entered
with. -/
def lowerAt (site : Site) (l : Located) : Lower Unit := do
  if site.targets.contains l.pc then enterTarget site l.pc
  modify fun s => { s with positions := s.positions.insert l.pc s.code.size }
  if (← lowerInstr site l) = .transfer then
    let s ← get
    match s.stack.resetTo (s.entryTypes.getD l.next []) with
    | some stack => set { s with stack }
    | none => throw .releasedTwice

/-! ### Finishing -/

/-- Replace the position a branch goes to by the index of the instruction there. -/
def resolve (positions : Std.HashMap Nat Nat) : Emitted → Except Error Inst
  | .inst inst => .ok inst
  | .branch condition pc target =>
    match positions[target]? with
    | none => .error (.stream (.misalignedBranch pc target))
    | some index =>
      match condition with
      | none => .ok { kind := .jump, args := [.branch index] }
      | some condition => .ok { kind := .jumpIf condition, args := [.branch index, .flags] }

/-- The indices that jumps go to, and the entry. -/
def jumpTargets (code : List Inst) : Std.HashSet Nat :=
  Std.HashSet.ofList (0 :: code.filterMap fun inst =>
    match inst.kind.isJump, inst.args with
    | true, .branch target :: _ => some target.toNat
    | _, _ => none)

/-- Mark branch targets and the first instructions of basic blocks, from an index on. -/
def markFrom (targets : Std.HashSet Nat) (index : Nat) (afterJump : Bool) : List Inst → List Inst
  | [] => []
  | inst :: rest =>
    let isTarget := targets.contains index
    { inst with marks := { isTarget, leadsBlock := isTarget || afterJump } }
      :: markFrom targets (index + 1) inst.kind.isJump rest

/-- Mark branch targets and the first instructions of basic blocks. -/
def markBlocks (code : List Inst) : List Inst := markFrom (jumpTargets code) 0 true code

/-- Lower a method of a class. -/
def lower (context : Context) (owner : ClassTable) (method : Method) : Except Error Body :=
  match Stream.scan method.bytecode with
  | .error e => .error (.stream e)
  | .ok stream => do
    let site : Site :=
      { context, constants := owner.constants, maxLocals := method.maxLocals,
        maxStack := method.maxStack, targets := stream.targets }
    let ((), s) ← (stream.instrs.forM (lowerAt site)).run {}
    let code ← s.code.toList.mapM (resolve s.positions)
    return { code := markBlocks code, frameSlots := site.tmpIndex s.stack.tmpCount }

end SlotJit.Lowering

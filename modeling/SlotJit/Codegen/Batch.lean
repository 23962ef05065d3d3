import SlotJit.Codegen.Template
import SlotJit.CodeMemory.Allocator

/-!
# Compiling methods

A method's code starts with a check that its frame fits the slot array, and goes on with the code of
its instructions. Labels 0 to the number of instructions stand for the instructions and the end, the
next one belongs to the check, and the ones after it to the templates in order.
-/

namespace SlotJit.Codegen

open SlotJit.CodeMemory SlotJit.Ir SlotJit.Tables SlotJit.X64

/-- Where the address of a method's code is to be written once it is known. -/
structure Relocation where
  /-- The method whose address is written. -/
  source : SymbolId
  /-- The method whose code is written to. -/
  target : SymbolId
  /-- Where in the target's code the eight bytes of the address are. -/
  offset : Nat
deriving DecidableEq, Repr

/-- A method's code. -/
structure CompiledMethod where
  id : SymbolId
  code : Region
deriving DecidableEq

/-- The code of a batch, with the places that linking has to fill in. -/
structure CompiledBatch where
  methods : Array CompiledMethod := #[]
  relocations : List Relocation := []
deriving DecidableEq

namespace CompiledBatch

/-- The first code of a method. -/
def find? (batch : CompiledBatch) (id : SymbolId) : Option CompiledMethod :=
  batch.methods.find? (·.id == id)

/-- Number of code bytes. -/
def codeSize (batch : CompiledBatch) : Nat := batch.methods.foldr (·.code.size + ·) 0

end CompiledBatch

/-- A method that cannot be compiled. -/
structure Failure where
  /-- Full name of the method. -/
  method : String
  cause : Error
deriving DecidableEq

/-- The wording of a failure. -/
def Failure.message (f : Failure) : String := f.method ++ ": " ++ f.cause.message

/-- The instructions that jumps name, as labels. -/
def branchLabels (code : List Inst) : Std.HashSet Nat :=
  Std.HashSet.ofList (code.filterMap fun inst =>
    if inst.kind.isJump then inst.args.head?.bind branchLabel? else none)

/-- Trap if the frame would run past the limit of the slot array. -/
def stackCheck (frameSlots : Nat) (label : Nat) : Code := do
  let disp ← slotDisp frameSlots
  return [.instr (.lea .rax (frameMem disp)),
    .instr (.aluLoad .cmp .qword .rax { base := envReg, disp := limitOffset }),
    .jump (some .be) label, .instr .trap, .label label]

/-- A label for an instruction that jumps name. -/
def labelAt (labels : Std.HashSet Nat) (index : Nat) : List Piece :=
  if labels.contains index then [.label index] else []

/-- The code of the instructions from an index on, and a label for the end. -/
def instructionPieces (site : Site) (labels : Std.HashSet Nat) (index fresh : Nat) :
    List Inst → Code
  | [] => .ok (labelAt labels index)
  | inst :: rest => do
    let code ← template site fresh inst
    let rest ← instructionPieces site labels (index + 1) (fresh + labelCount inst.kind) rest
    return labelAt labels index ++ code ++ rest

/-- The code of a body. -/
def bodyPieces (site : Site) (code : List Inst) : Code := do
  let checkLabel := code.length + 1
  let check ← stackCheck site.frameSlots checkLabel
  return check ++ (← instructionPieces site (branchLabels code) 0 (checkLabel + 1) code)

/-- The places in laid out pieces that hold the address of another method's code. The address
follows two bytes of opcode. -/
def relocationsOf (target : SymbolId) (pieces : List Piece) (items : List Item) : List Relocation :=
  (pieces.zip items).filterMap fun (piece, item) =>
    match piece with
    | .loadCode callee => some { source := callee, target, offset := item.offset + 2 }
    | _ => none

/-- The code of a method, linked, with the pieces it is made of and its size. -/
def assembleMethod (ctx : Context) (natives : Natives) (method : Method) :
    Except Error (List Piece × Assembly × Nat) := do
  if method.body.code.isEmpty then throw .emptyMethod
  let site : Site := { context := ctx, natives, frameSlots := method.body.frameSlots }
  let pieces ← bodyPieces site method.body.code
  match (Assembly.mk (pieces.map Piece.item).toArray).link with
  | (_, .error e) => throw (.assembly e)
  | (linked, .ok size) => return (pieces, linked, size)

/-- Compile a method into a region of its own, under the id by which it was asked for. -/
def compileMethod (ctx : Context) (natives : Natives) (alloc : Allocator) (id : SymbolId)
    (method : Method) : Allocator × Except Error (CompiledMethod × List Relocation) :=
  match assembleMethod ctx natives method with
  | .error e => (alloc, .error e)
  | .ok (pieces, linked, size) =>
    match alloc.allocate size with
    | (alloc, .error e) => (alloc, .error (.memory e))
    | (alloc, .ok region) =>
      match region.write 0 linked.bytes with
      | (_, some e) => (alloc, .error (.memory e))
      | (code, none) =>
        (alloc, .ok ({ id, code }, relocationsOf method.id pieces linked.items.toList))

/-- What compiling methods leads to. -/
structure Compilation where
  /-- The methods compiled, which are all unless one failed. -/
  batch : CompiledBatch := {}
  failure : Option Failure := none
  alloc : Allocator

/-- Compile methods in order, up to the first that cannot be compiled. -/
def compileBatch (ctx : Context) (natives : Natives) (alloc : Allocator) :
    List SymbolId → Compilation :=
  go {} alloc
where
  /-- Compile the remaining methods, given those already compiled. -/
  go (batch : CompiledBatch) (alloc : Allocator) : List SymbolId → Compilation
    | [] => { batch, alloc }
    | id :: rest =>
      let stop (alloc : Allocator) (cause : Error) : Compilation :=
        { batch, failure := some { method := ctx.qualifiedName id, cause }, alloc }
      match ctx.method? id with
      | none => stop alloc (.unresolvedSymbol id)
      | some method =>
        match compileMethod ctx natives alloc id method with
        | (alloc, .error cause) => stop alloc cause
        | (alloc, .ok (compiled, relocations)) =>
          go { methods := batch.methods.push compiled,
               relocations := batch.relocations ++ relocations } alloc rest

end SlotJit.Codegen

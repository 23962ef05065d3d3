import SlotJit.Codegen.Batch

/-!
# Linking

Writes the address of each callee's code into the call sites of a batch, then makes the batch
executable. Callees are in the batch or already published.
-/

namespace SlotJit

open SlotJit.CodeMemory SlotJit.Codegen SlotJit.Tables

/-- Why a batch cannot be linked. -/
inductive LinkError where
  | missingSource (id : SymbolId) (name : String)
  | missingTarget (id : SymbolId) (name : String)
  | patch (name : String) (offset : Nat) (cause : MemoryError)
deriving DecidableEq, Repr

/-- The wording of a link error. -/
def LinkError.message : LinkError → String
  | missingSource id name => "no code for callee " ++ name ++ " (" ++ id.text ++ ")"
  | missingTarget id name =>
    "relocation targets " ++ name ++ " (" ++ id.text ++ "), which is not in the batch"
  | patch name offset cause =>
    "cannot patch " ++ name ++ s!" at offset {offset}: " ++ cause.message

namespace Linking

/-- The address of a method's code: in the batch if it is there, else where it was published. -/
def codeAddress? (ctx : Context) (batch : CompiledBatch) (id : SymbolId) : Option UInt64 :=
  match batch.find? id with
  | some compiled => some compiled.code.base
  | none => do
    let method ← ctx.method? id
    let code ← method.code
    return code.base

/-- Fill in one relocation. -/
def patch (ctx : Context) (batch : CompiledBatch) (r : Relocation) :
    CompiledBatch × Option LinkError :=
  match codeAddress? ctx batch r.source with
  | none => (batch, some (.missingSource r.source (ctx.qualifiedName r.source)))
  | some address =>
    match batch.methods.findIdx? (·.id == r.target) with
    | none => (batch, some (.missingTarget r.target (ctx.qualifiedName r.target)))
    | some i =>
      match batch.methods[i]? with
      | none => (batch, some (.missingTarget r.target (ctx.qualifiedName r.target)))
      | some compiled =>
        let (code, e) := compiled.code.writeWord r.offset address
        ({ batch with methods := batch.methods.setIfInBounds i { compiled with code } },
          e.map (.patch (ctx.qualifiedName r.target) r.offset))

/-- Fill in relocations in order, up to the first that fails. -/
def patchAll (ctx : Context) (batch : CompiledBatch) :
    List Relocation → CompiledBatch × Option LinkError
  | [] => (batch, none)
  | r :: rest =>
    match patch ctx batch r with
    | (batch, some e) => (batch, some e)
    | (batch, none) => patchAll ctx batch rest

/-- Make all code executable. -/
def sealCode (batch : CompiledBatch) : CompiledBatch :=
  { batch with methods := batch.methods.map fun m => { m with code := m.code.makeExecutable } }

/-- Link a batch. When that fails, the relocations before the one that failed are filled in and
nothing is executable yet. -/
def link (ctx : Context) (batch : CompiledBatch) : CompiledBatch × Option LinkError :=
  match patchAll ctx batch batch.relocations with
  | (patched, some e) => (patched, some e)
  | (patched, none) => (sealCode patched, none)

/-- The method whose code address the site of a relocation holds. -/
def calleeAt? (ctx : Context) (batch : CompiledBatch) (r : Relocation) : Option SymbolId := do
  let compiled ← batch.find? r.target
  let address := UInt64.ofNat (ofLittleEndian
    ((List.range 8).map fun i => compiled.code.byte (r.offset + i)))
  match batch.methods.find? (·.code.base == address) with
  | some callee => some callee.id
  | none =>
    let published := ctx.published.toList.flatMap fun p => p.classes.toList.flatMap fun c =>
      c.methods.toList
    let method ← published.find? fun m => m.code.any (·.base == address)
    return method.id

end Linking

end SlotJit

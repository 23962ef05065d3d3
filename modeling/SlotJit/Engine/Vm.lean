import SlotJit.Codegen.EntryStub
import SlotJit.Engine.Host
import SlotJit.Linking
import SlotJit.Lowering.Batch
import SlotJit.Machine.CodeMap
import Std.Data.HashMap

/-!
# The virtual machine

Packages are loaded in batches. A batch is lowered, compiled and linked as a whole, and is published
only if all of that succeeds.
-/

namespace SlotJit.Engine

open SlotJit.CodeMemory SlotJit.Codegen SlotJit.Machine SlotJit.Tables

/-- Choices that hold for a virtual machine. -/
structure Config where
  /-- Slots of an environment. -/
  stackSlots : Nat := 65536
  /-- Greatest number of code bytes in a batch. -/
  codeLimit : Option Nat := none
deriving DecidableEq, Repr

/-- Where the entry stub is. -/
def stubBase : UInt64 := 0x7e0000000000

/-- The entry stub in memory. -/
def stubRegion : Region :=
  { base := stubBase, size := entryStubBytes.length, patches := Patch.add 0 entryStubBytes [],
    executable := true }

/-- Published packages and bound native methods. -/
structure Vm where
  config : Config := {}
  /-- Addresses of host functions by full method name. -/
  natives : Std.HashMap String UInt64 := {}
  packages : Array Package := #[]
  /-- Where the next code region goes. -/
  nextCode : UInt64 := Allocator.codeBase
  /-- The entry stub and all published code. -/
  code : CodeMap := CodeMap.insert {} stubRegion

/-- Why a batch is not loaded. -/
inductive LoadError where
  | alreadyLoaded (package : String)
  | build (cause : BuildError)
  | lowering (failure : Lowering.Failure)
  | codegen (failure : Codegen.Failure)
  | link (cause : LinkError)

/-- The wording of a load error. -/
def LoadError.message : LoadError → String
  | alreadyLoaded package => "package " ++ package ++ " is already loaded"
  | build cause => cause.message
  | lowering failure => failure.message
  | codegen failure => failure.message
  | link cause => cause.message

namespace Vm

/-- Bind a native method to the function at an address, replacing an earlier binding. Batches loaded
later see it. -/
def register (vm : Vm) (name : String) (address : UInt64) : Vm :=
  { vm with natives := vm.natives.insert name address }

/-- Addresses of the bound native methods. -/
def nativeAddress? (vm : Vm) : Natives := fun name => vm.natives[name]?

/-- The first package of a batch whose name is taken by a published one or an earlier one of the
batch. -/
def taken? (published : List String) : List PackageDecl → Option String
  | [] => none
  | p :: rest =>
      if published.contains p.name then some p.name else taken? (p.name :: published) rest

/-- The tables of a batch beside the published ones. -/
def stage (vm : Vm) (batch : List PackageDecl) : Except LoadError Context :=
  match buildAll vm.packages.size batch with
  | .ok staged => .ok { published := vm.packages, staged }
  | .error e => .error (.build e)

/-- A batch with all bodies filled in. -/
def lowerBatch (ctx : Context) : Except LoadError (List (SymbolId × Ir.Body)) :=
  match Lowering.lowerStaged ctx with
  | .ok bodies => .ok bodies
  | .error failure => .error (.lowering failure)

/-- Fill in bodies. -/
def withBodies (ctx : Context) (bodies : List (SymbolId × Ir.Body)) : Context :=
  bodies.foldl (fun ctx (id, body) => ctx.modifyStaged id fun m => { m with body }) ctx

/-- Fill in code. -/
def withCode (ctx : Context) (batch : CompiledBatch) : Context :=
  batch.methods.foldl
    (fun ctx c => ctx.modifyStaged c.id fun m => { m with code := some c.code }) ctx

/-- Publish a linked batch. -/
def publish (vm : Vm) (ctx : Context) (batch : CompiledBatch) (nextCode : UInt64) : Vm :=
  { vm with
    packages := vm.packages ++ (withCode ctx batch).staged
    nextCode
    code := batch.methods.foldl (fun code m => code.insert m.code) vm.code }

/-- Link and publish compiled methods. -/
def linkAndPublish (vm : Vm) (ctx : Context) (c : Compilation) : Vm × Option LoadError :=
  match c.failure with
  | some failure => (vm, some (.codegen failure))
  | none =>
    match Linking.link ctx c.batch with
    | (_, some e) => (vm, some (.link e))
    | (linked, none) => (vm.publish ctx linked c.alloc.next, none)

/-- The tables of a batch with all bodies, and the methods to compile. -/
def prepare (vm : Vm) (batch : List PackageDecl) : Except LoadError (Context × List SymbolId) := do
  if let some name := taken? (vm.packages.toList.map (·.name)) batch then
    throw (.alreadyLoaded name)
  let ctx ← vm.stage batch
  let bodies ← lowerBatch ctx
  return (withBodies ctx bodies, bodies.map (·.1))

/-- Compile the methods of a prepared batch. -/
def compile (vm : Vm) (ctx : Context) (ids : List SymbolId) : Compilation :=
  compileBatch ctx vm.nativeAddress? { limit := vm.config.codeLimit, next := vm.nextCode } ids

/-- Load a batch. -/
def load (vm : Vm) (batch : List PackageDecl) : Vm × Option LoadError :=
  match vm.prepare batch with
  | .error e => (vm, some e)
  | .ok (ctx, ids) => vm.linkAndPublish ctx (vm.compile ctx ids)

/-- The bodies of a batch by full method name, without compiling it. -/
def lower (vm : Vm) (batch : List PackageDecl) : Except LoadError (List (String × Ir.Body)) := do
  let ctx ← vm.stage batch
  let bodies ← lowerBatch ctx
  return bodies.map fun (id, body) => (ctx.qualifiedName id, body)

/-- What a batch would see of this machine. -/
def context (vm : Vm) : Context := { published := vm.packages }

/-- The package of a name. -/
def findPackage? (vm : Vm) (name : String) : Option Package := vm.context.findPackage? name

/-- Find a method by the full name of its class, its name and its descriptor. -/
def findMethod? (vm : Vm) (className name descriptor : String) : Option Method :=
  vm.context.findMethod? className name descriptor

/-- The method of a symbol id. -/
def method? (vm : Vm) (id : SymbolId) : Option Method := vm.context.method? id

/-- The full name of a method. -/
def qualifiedName (vm : Vm) (id : SymbolId) : String := vm.context.qualifiedName id

/-- The machine in one line. -/
def summary (vm : Vm) : String :=
  s!"Vm \x7b packages: {vm.packages.size}, natives: {vm.natives.size} \x7d"

end Vm

end SlotJit.Engine

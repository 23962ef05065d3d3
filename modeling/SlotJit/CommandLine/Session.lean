import SlotJit.CommandLine.Command
import SlotJit.Engine.Env
import SlotJit.Manifest

/-!
# Carrying out commands

Commands are carried out on the text of their manifest. The result is what goes to the two output
channels and how the process ends.
-/

namespace SlotJit.CommandLine

open SlotJit.Decimal SlotJit.Engine SlotJit.Ieee SlotJit.Machine SlotJit.Tables

/-- How the process ends. -/
inductive Ending where
  | exited (code : Nat)
  | killed (signal : Signal)
deriving DecidableEq, Repr

/-- What a command leaves behind; channels hold lines. -/
structure Report where
  output : List String := []
  errors : List String := []
  ending : Ending := .exited 0
deriving DecidableEq, Repr

/-- The text of a file, or the reason why it cannot be read. -/
abbrev Files := String → Except String String

/-- The packages of a manifest file. -/
def loadManifest (files : Files) (path : String) : Except String (List PackageDecl) :=
  match files path with
  | .error reason => .error ("failed to read " ++ path ++ ": " ++ reason)
  | .ok text =>
    match Manifest.parse text with
    | .error e => .error ("failed to parse " ++ path ++ ": " ++ e.message)
    | .ok packages => .ok packages

/-- The machine that commands use, with the native methods of the test package bound. -/
def startVm : Vm :=
  (({} : Vm).register "testutil/T.isub" HostFn.isub.address).register "testutil/T.printInt"
    HostFn.log.address

/-- Bodies as a listing: a heading, the instructions and a blank line for each. -/
def listing (bodies : List (String × Ir.Body)) : List String :=
  bodies.flatMap fun (name, body) => ["== " ++ name ++ " ==", body.text]

/-- The last dot of a text splits it. -/
def splitAtLastDot? (text : String) : Option (String × String) :=
  let reversed := text.toList.reverse
  match reversed.dropWhile (· ≠ '.') with
  | [] => none
  | _ :: before =>
    some (String.ofList before.reverse, String.ofList (reversed.takeWhile (· ≠ '.')).reverse)

/-- The value of a type that an argument stands for. -/
def readArgument (ty : FieldType) (raw : String) : Except String Value :=
  let bad (reason : String) : String :=
    "invalid " ++ ty.text ++ " argument '" ++ raw ++ "': " ++ reason
  match ty.valueType with
  | .int => ((readInteger 32 raw).map fun n => Value.int (Int32.ofInt n)).mapError (bad ·.message)
  | .long => ((readInteger 64 raw).map fun n => Value.long (Int64.ofInt n)).mapError (bad ·.message)
  | .float =>
    ((readFloat .single raw).map fun b => Value.float (UInt32.ofNat b)).mapError (bad ·.message)
  | .double =>
    ((readFloat .double raw).map fun b => Value.double (UInt64.ofNat b)).mapError (bad ·.message)
  | .ref => .error ("cannot pass " ++ ty.text ++ " from the command line")

/-- The method that `run` names, and the values of its arguments. -/
def findTarget (vm : Vm) (o : RunOptions) : Except String (Method × List Value) := do
  let some (className, name) := splitAtLastDot? o.method
    | throw ("expected pkg/Class.method, got '" ++ o.method ++ "'")
  let some method := vm.findMethod? className name o.descriptor
    | throw ("method " ++ o.method ++ o.descriptor ++ " not found")
  let params := method.signature.params
  if params.length ≠ o.args.length then
    throw (o.method ++ s!" takes {params.length} arguments, {o.args.length} given")
  return (method, ← (params.zip o.args).mapM fun (ty, raw) => readArgument ty raw)

/-- A result as it is printed. -/
def resultText : Value → String
  | .int n => toString n.toInt
  | .long n => toString n.toInt
  | .float bits => Layout.plain.text .single bits.toNat
  | .double bits => Layout.plain.text .double bits.toNat
  | v => v.text

/-- A failed command. -/
def failed (errors : List String) (reason : String) : Report :=
  { errors := errors ++ ["error: " ++ reason], ending := .exited 1 }

/-- The report of a call. -/
def reportCall (errors : List String) (result : CallResult) : Report :=
  let report : Report := { output := result.lines, errors }
  match result.outcome with
  | .returned value => { report with output := result.lines ++ (value.map resultText).toList }
  | .refused e => { report with errors := errors ++ ["error: " ++ e.message], ending := .exited 1 }
  | .trapped signal => { report with ending := .killed signal }
  | .outOfSlots | .exhausted => { report with ending := .exited 101 }

/-- What compiling reports for each method. -/
def traceLines (ctx : Context) (c : Codegen.Compilation) : List String :=
  c.batch.methods.toList.map fun m =>
    "[JIT] Compiled '" ++ ctx.qualifiedName m.id ++ s!"': {m.code.size} bytes"

/-- The slot code of a batch if it is to be shown. -/
def shownBodies (vm : Vm) (o : RunOptions) (batch : List PackageDecl) :
    Except LoadError (List String) :=
  if o.dumpIr then (vm.lower batch).map listing else .ok []

/-- Call a method of a loaded batch. -/
def callTarget (place : Place) (vm : Vm) (o : RunOptions) (errors : List String) : Report :=
  match findTarget vm o with
  | .error reason => failed errors reason
  | .ok (method, values) =>
    reportCall errors ((Env.create vm place).call vm HostFn.table ampleBudget method values)

/-- Run one method of a batch. -/
def runBatch (place : Place) (o : RunOptions) (batch : List PackageDecl) : Report :=
  match shownBodies startVm o batch with
  | .error e => failed [] e.message
  | .ok shown =>
    match startVm.prepare batch with
    | .error e => failed shown e.message
    | .ok (ctx, ids) =>
      let compilation := startVm.compile ctx ids
      let errors := shown ++ if o.traceJit then traceLines ctx compilation else []
      match startVm.linkAndPublish ctx compilation with
      | (_, some e) => failed errors e.message
      | (vm, none) => callTarget place vm o errors

/-- Print the slot code of a batch. -/
def printBatch (batch : List PackageDecl) : Report :=
  match startVm.lower batch with
  | .error e => failed [] e.message
  | .ok bodies => { output := listing bodies }

/-- Carry out a command. A method runs in an environment at the given place. -/
def Command.execute (files : Files) (place : Place) : Command → Report
  | .run o =>
    match loadManifest files o.manifest with
    | .error reason => failed [] reason
    | .ok batch => runBatch place o batch
  | .ir manifest =>
    match loadManifest files manifest with
    | .error reason => failed [] reason
    | .ok batch => printBatch batch

/-- Carry out what a command line asks for. -/
def Request.execute (files : Files) (place : Place) : Request → Report
  | .command c => c.execute files place
  | .help text => { output := text }
  | .misuse =>
    { errors := ["error: the words make no command", "", "For more information, try '--help'."],
      ending := .exited 2 }

end SlotJit.CommandLine

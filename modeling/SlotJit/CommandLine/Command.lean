import SlotJit.CommandLine.Grammar

/-!
# Commands

The commands, their help, and how they are read from the words of a command line.
-/

namespace SlotJit.CommandLine

/-- What `run` is asked to do. -/
structure RunOptions where
  manifest : String
  /-- Full name of the method. -/
  method : String
  /-- Descriptor of the method; empty for the first overload. -/
  descriptor : String := ""
  traceJit : Bool := false
  dumpIr : Bool := false
  args : List String := []
deriving DecidableEq, Repr

/-- A command. -/
inductive Command where
  /-- Run one method of a manifest. -/
  | run (options : RunOptions)
  /-- Print the slot code of a manifest. -/
  | ir (manifest : String)
deriving DecidableEq, Repr

/-- What the words of a command line ask for. -/
inductive Request where
  | command (command : Command)
  /-- Help, with its text. -/
  | help (text : List String)
  | misuse
deriving DecidableEq, Repr

/-! ### Help -/

/-- Help on all commands. -/
def mainHelp : List String :=
  ["A minimal JIT-only JVM",
    "",
    "Usage: jvmjit <COMMAND>",
    "",
    "Commands:",
    "  run   Load a manifest and run one static method",
    "  ir    Print the IR of every method in a manifest",
    "  help  Print this message or the help of the given subcommand(s)",
    "",
    "Options:",
    "  -h, --help  Print help"]

/-- Help on `run`. -/
def runHelp : List String :=
  ["Load a manifest and run one static method",
    "",
    "Usage: jvmjit run [OPTIONS] <MANIFEST> <METHOD> [ARGS]...",
    "",
    "Arguments:",
    "  <MANIFEST>  Load-set manifest (TOML)",
    "  <METHOD>    Method to run, as pkg/Class.method",
    "  [ARGS]...   Arguments to pass to the method",
    "",
    "Options:",
    "      --descriptor <DESCRIPTOR>  Method descriptor (defaults to the first overload)" ++
      " [default: \"\"]",
    "      --trace-jit                Trace JIT compilation events",
    "      --dump-ir                  Dump the IR of every translated method to stderr",
    "  -h, --help                     Print help"]

/-- Help on `ir`. -/
def irHelp : List String :=
  ["Print the IR of every method in a manifest",
    "",
    "Usage: jvmjit ir <MANIFEST>",
    "",
    "Arguments:",
    "  <MANIFEST>  Load-set manifest (TOML)",
    "",
    "Options:",
    "  -h, --help  Print help"]

/-- Help on `help`. -/
def helpHelp : List String :=
  ["Print this message or the help of the given subcommand(s)",
    "",
    "Usage: jvmjit help [COMMAND]...",
    "",
    "Arguments:",
    "  [COMMAND]...  Print help for the subcommand(s)"]

/-! ### Reading -/

/-- The words of `run`. -/
def runGrammar : Grammar :=
  { options := ["descriptor"]
    flags := ["trace-jit", "dump-ir"]
    positionals := [.path, .text]
    trailing := true }

/-- The words of `ir`. -/
def irGrammar : Grammar := { positionals := [.path] }

/-- Read the words of a command. -/
def request (g : Grammar) (help : List String) (make : Matches → Option Command)
    (words : List String) : Request :=
  match g.parse words with
  | .error .help => .help help
  | .error .misuse => .misuse
  | .ok m =>
    match make m with
    | some command => .command command
    | none => .misuse

/-- The command of the sorted words of `run`. -/
def runCommand? (m : Matches) : Option Command :=
  match m.positionals with
  | [manifest, method] =>
    some (.run
      { manifest
        method
        descriptor := (m.options.lookup "descriptor").getD ""
        traceJit := m.flags.contains "trace-jit"
        dumpIr := m.flags.contains "dump-ir"
        args := m.trailing })
  | _ => none

/-- The command of the sorted words of `ir`. -/
def irCommand? (m : Matches) : Option Command :=
  match m.positionals with
  | [manifest] => some (.ir manifest)
  | _ => none

/-- Help on the commands named. -/
def helpOn : List String → Request
  | [] => .help mainHelp
  | ["run"] => .help runHelp
  | ["ir"] => .help irHelp
  | ["help"] => .help helpHelp
  | _ => .misuse

/-- Read a command line. -/
def Request.ofWords : List String → Request
  | [] => .misuse
  | "run" :: rest => request runGrammar runHelp runCommand? rest
  | "ir" :: rest => request irGrammar irHelp irCommand? rest
  | "help" :: rest => helpOn rest
  | word :: _ =>
    match Word.ofString word with
    | .long "help" none => .help mainHelp
    | .short ('h' :: _) => .help mainHelp
    | _ => .misuse

end SlotJit.CommandLine

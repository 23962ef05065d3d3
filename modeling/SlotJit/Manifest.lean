import SlotJit.ClassData.Declaration
import SlotJit.Ieee.Conversion
import SlotJit.Toml.Document

/-!
# Manifests

Class data written as TOML: a list `package` of packages with lists `class` of classes with lists
`method` of methods. Entries are read in the order of the document up to the first that does not
fit; entries of other names are skipped. A record may also be written as an array of its fields in
order.
-/

namespace SlotJit

open SlotJit.Toml SlotJit.Ieee

/-- Why a text is no manifest. -/
inductive ManifestError where
  /-- It is no TOML document. -/
  | invalidDocument
  /-- A value is not of the kind or in the range that its place asks for. -/
  | unexpectedValue (place : String)
  | missingField (name : String)
  | unknownConstant (name : String)
  | unknownAccessFlag (name : String)
deriving DecidableEq, Repr

/-- The wording of a manifest error. -/
def ManifestError.message : ManifestError → String
  | invalidDocument => "invalid document"
  | unexpectedValue place => "unexpected value for " ++ place
  | missingField name => "missing field " ++ name
  | unknownConstant name => "unknown constant " ++ name
  | unknownAccessFlag name => "unknown access flag: " ++ name

namespace Manifest

/-- Reads a value. -/
abbrev Decode (α : Type) := Node → Except ManifestError α

/-- A string. -/
def string (place : String) : Decode String
  | .string text => .ok text
  | _ => .error (.unexpectedValue place)

/-- An integer between bounds. -/
def integer (place : String) (low high : Int) : Decode Int
  | .integer n =>
    if low ≤ n.toInt ∧ n.toInt ≤ high then .ok n.toInt else .error (.unexpectedValue place)
  | _ => .error (.unexpectedValue place)

/-- A number in a format; an integer is rounded to it. -/
def number (place : String) (f : Format) : Decode Nat
  | .float bits => .ok (Format.convert .double f bits)
  | .integer n => .ok (f.ofInt n.toInt)
  | _ => .error (.unexpectedValue place)

/-- A list. -/
def listOf {α : Type} (place : String) (item : Decode α) : Decode (List α)
  | .array items => items.mapM item
  | .tables items => items.mapM fun entries => item (.table .header entries)
  | _ => .error (.unexpectedValue place)

/-- The entries of a record with the given fields. -/
def recordEntries (place : String) (fields : List String) : Decode Entries
  | .table _ entries => .ok entries
  | .array items => .ok (fields.zip items)
  | .tables items => .ok (fields.zip (items.map (.table .header)))
  | _ => .error (.unexpectedValue place)

/-- Read a record: each entry changes the fields read so far. -/
def record {σ : Type} (place : String) (fields : List String) (start : σ)
    (entry : σ → String → Node → Except ManifestError σ) : Decode σ := fun node => do
  (← recordEntries place fields node).foldlM (fun s (key, value) => entry s key value) start

/-- A field that must be there. -/
def required {α : Type} (name : String) : Option α → Except ManifestError α
  | some a => .ok a
  | none => .error (.missingField name)

/-- The fields of a member reference read so far. -/
structure MemberFields where
  className : Option String := none
  name : Option String := none
  descriptor : Option String := none

/-- A member reference. -/
def member : Decode MemberRef := fun node => do
  let fields ← record "member" ["class", "name", "descriptor"] ({} : MemberFields)
    (fun s key value =>
      match key with
      | "class" => do return { s with className := some (← string key value) }
      | "name" => do return { s with name := some (← string key value) }
      | "descriptor" => do return { s with descriptor := some (← string key value) }
      | _ => .ok s) node
  return { className := ← required "class" fields.className, name := ← required "name" fields.name,
           descriptor := ← required "descriptor" fields.descriptor }

/-- A constant of a kind. -/
def constantOf (kind : String) (value : Node) : Except ManifestError Constant :=
  match kind with
  | "utf8" => do return .utf8 (← string kind value)
  | "int" => do return .int (Int32.ofInt (← integer kind (-0x80000000) 0x7fffffff value))
  | "long" => do
    return .long (Int64.ofInt (← integer kind (-0x8000000000000000) 0x7fffffffffffffff value))
  | "float" => do return .float (UInt32.ofNat (← number kind .single value))
  | "double" => do return .double (UInt64.ofNat (← number kind .double value))
  | "class" => do return .classRef (← string kind value)
  | "methodref" => do return .methodRef (← member value)
  | "fieldref" => do return .fieldRef (← member value)
  | _ => .error (.unknownConstant kind)

/-- A constant: a table whose only key is the kind. -/
def constant : Decode Constant
  | .table _ [(kind, value)] => constantOf kind value
  | _ => .error (.unexpectedValue "constant")

/-- Access flags: a list of names, all of which are read before the first is looked up. -/
def access : Decode Access := fun node => do
  match Access.ofNames (← listOf "access" (string "access") node) with
  | .ok flags => .ok flags
  | .error name => .error (.unknownAccessFlag name)

/-- The fields of a method read so far. -/
structure MethodFields where
  name : Option String := none
  descriptor : Option String := none
  access : Access := {}
  maxLocals : UInt16 := 0
  maxStack : UInt16 := 0
  code : List UInt8 := []

/-- A number of 16 bits. -/
def word (place : String) : Decode UInt16 := fun node => do
  return UInt16.ofNat (← integer place 0 0xffff node).toNat

/-- A byte. -/
def byte (place : String) : Decode UInt8 := fun node => do
  return UInt8.ofNat (← integer place 0 0xff node).toNat

/-- A method. -/
def method : Decode MethodDecl := fun node => do
  let s ← record "method" ["name", "descriptor", "access", "max_locals", "max_stack", "code"]
    ({} : MethodFields)
    (fun s key value =>
      match key with
      | "name" => do return { s with name := some (← string key value) }
      | "descriptor" => do return { s with descriptor := some (← string key value) }
      | "access" => do return { s with access := ← access value }
      | "max_locals" => do return { s with maxLocals := ← word key value }
      | "max_stack" => do return { s with maxStack := ← word key value }
      | "code" => do return { s with code := ← listOf key (byte key) value }
      | _ => .ok s) node
  return { name := ← required "name" s.name, descriptor := ← required "descriptor" s.descriptor,
           access := s.access, maxLocals := s.maxLocals, maxStack := s.maxStack, code := s.code }

/-- The fields of a class read so far. -/
structure ClassFields where
  name : Option String := none
  constants : List Constant := []
  methods : List MethodDecl := []

/-- A class. -/
def classDecl : Decode ClassDecl := fun node => do
  let s ← record "class" ["name", "constants", "method"] ({} : ClassFields)
    (fun s key value =>
      match key with
      | "name" => do return { s with name := some (← string key value) }
      | "constants" => do return { s with constants := ← listOf key constant value }
      | "method" => do return { s with methods := ← listOf key method value }
      | _ => .ok s) node
  return {
    name := ← required "name" s.name, constants := .ofList s.constants,
    methods := s.methods }

/-- The fields of a package read so far. -/
structure PackageFields where
  name : Option String := none
  classes : List ClassDecl := []

/-- A package. -/
def package : Decode PackageDecl := fun node => do
  let s ← record "package" ["name", "class"] ({} : PackageFields)
    (fun s key value =>
      match key with
      | "name" => do return { s with name := some (← string key value) }
      | "class" => do return { s with classes := ← listOf key classDecl value }
      | _ => .ok s) node
  return { name := ← required "name" s.name, classes := s.classes }

/-- The packages of a manifest. -/
def parse (text : String) : Except ManifestError (List PackageDecl) :=
  match Toml.parse? text with
  | none => .error .invalidDocument
  | some entries =>
    entries.foldlM (fun packages (key, value) =>
      if key = "package" then listOf key package value else .ok packages) []

end Manifest

end SlotJit

import SlotJit.ClassData.Declaration
import SlotJit.ClassData.Descriptor
import SlotJit.CodeMemory.Region
import SlotJit.Ir.Body

/-!
# Package, class and method tables

Classes within a package and methods within a class are kept in order of their names, so that
look-ups are binary searches. Overloads keep the order of their declarations. The position of a
method in the tables is its symbol id.
-/

namespace SlotJit.Tables

/-- The first position of an interval from which on `below` fails, given that it holds before that
position and nowhere after. -/
def partitionPoint (below : Nat → Bool) (lo hi : Nat) : Nat :=
  if lo < hi then
    let mid := lo + (hi - lo) / 2
    if below mid then partitionPoint below (mid + 1) hi else partitionPoint below lo mid
  else lo
termination_by hi - lo

/-- The first position in a table of an entry whose name is not below the given one. -/
def lowerBound {α : Type} (nameOf : α → String) (table : Array α) (name : String) : Nat :=
  partitionPoint (fun i => match table[i]? with | some a => nameOf a < name | none => false)
    0 table.size

/-- A method. Its body and code are filled in when its batch is lowered and compiled. -/
structure Method where
  name : String
  descriptor : String
  signature : Descriptor
  access : Access
  id : SymbolId
  maxLocals : UInt16
  maxStack : UInt16
  bytecode : List UInt8
  body : Ir.Body := {}
  code : Option CodeMemory.Region := none
deriving DecidableEq

/-- Whether the method has bytecode to compile. Native and abstract methods have none, and
constructors are left out. -/
def Method.isCompiled (m : Method) : Bool :=
  !(m.access.isNative || m.access.isAbstract || m.name == "<init>" || m.name == "<clinit>")

/-- A class with its methods in order of their names. -/
structure ClassTable where
  name : String
  constants : ConstantPool
  methods : Array Method
deriving DecidableEq

/-- Find a method by name. A method with the very descriptor wins; the empty descriptor means the
first overload. -/
def ClassTable.findMethod? (c : ClassTable) (name descriptor : String) : Option Method :=
  let start := lowerBound Method.name c.methods name
  let overloads := (c.methods.extract start c.methods.size).toList.takeWhile (·.name == name)
  match overloads.find? (·.descriptor == descriptor) with
  | some method => some method
  | none => if descriptor.isEmpty then overloads.head? else none

/-- A package with its classes in order of their names. -/
structure Package where
  index : Nat
  name : String
  classes : Array ClassTable
deriving DecidableEq

/-- Find a class by name. -/
def Package.findClass? (p : Package) (name : String) : Option ClassTable :=
  match p.classes[lowerBound ClassTable.name p.classes name]? with
  | some c => if c.name == name then some c else none
  | none => none

/-- Why a package has no tables. -/
inductive BuildError where
  | duplicateClass (name : String)
  | symbol (method : String) (cause : SymbolError)
  | descriptor (method : String) (cause : DescriptorError)
deriving DecidableEq, Repr

/-- The wording of a build error. -/
def BuildError.message : BuildError → String
  | duplicateClass name => "duplicate class " ++ name
  | symbol method cause => method ++ ": " ++ cause.message
  | descriptor method cause => method ++ ": bad descriptor: " ++ cause.message

/-- Put things in order of their names, keeping the order of equal names. -/
def sortedByName {α : Type} (nameOf : α → String) (items : List α) : List α :=
  items.mergeSort fun a b => !decide (nameOf b < nameOf a)

/-- The first name that two neighbours share. -/
def repeatedName? {α : Type} (nameOf : α → String) : List α → Option String
  | a :: b :: rest =>
    if nameOf a == nameOf b then some (nameOf a) else repeatedName? nameOf (b :: rest)
  | _ => none

/-- The full name of a method: package, class and method. -/
def qualify (package className method : String) : String :=
  package ++ "/" ++ className ++ "." ++ method

/-- The table entry of a method at a position. -/
def Method.build (package : Nat) (packageName : String) (classIndex : Nat) (className : String)
    (member : Nat) (decl : MethodDecl) : Except BuildError Method :=
  match SymbolId.ofIndices package classIndex member with
  | .error e => .error (.symbol (qualify packageName className decl.name) e)
  | .ok id =>
    match Descriptor.parse decl.descriptor with
    | .error e => .error (.descriptor (qualify packageName className decl.name) e)
    | .ok signature =>
      .ok { name := decl.name, descriptor := decl.descriptor, signature, access := decl.access, id,
            maxLocals := decl.maxLocals, maxStack := decl.maxStack, bytecode := decl.code }

/-- The table of a class at a position. -/
def ClassTable.build (package : Nat) (packageName : String) (classIndex : Nat) (decl : ClassDecl) :
    Except BuildError ClassTable := do
  let methods ← (sortedByName MethodDecl.name decl.methods).zipIdx.mapM fun (m, member) =>
    Method.build package packageName classIndex decl.name member m
  return { name := decl.name, constants := decl.constants, methods := methods.toArray }

/-- The tables of a package with the given index. -/
def Package.build (index : Nat) (decl : PackageDecl) : Except BuildError Package := do
  let classes := sortedByName ClassDecl.name decl.classes
  match repeatedName? ClassDecl.name classes with
  | some name => throw (.duplicateClass (decl.name ++ "/" ++ name))
  | none =>
    let classes ← classes.zipIdx.mapM fun (c, classIndex) =>
      ClassTable.build index decl.name classIndex c
    return { index, name := decl.name, classes := classes.toArray }

/-- The tables of packages with consecutive indices. -/
def buildAll (first : Nat) (batch : List PackageDecl) : Except BuildError (Array Package) := do
  let packages ← batch.zipIdx.mapM fun (decl, i) => Package.build (first + i) decl
  return packages.toArray

end SlotJit.Tables

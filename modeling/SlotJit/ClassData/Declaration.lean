import SlotJit.ClassData.Access
import SlotJit.ClassData.ConstantPool

/-!
# Declarations

Class data as a loader hands it over: packages of classes of methods, in the order in which they
were declared and before any check.
-/

namespace SlotJit

/-- A method with its bytecode. -/
structure MethodDecl where
  name : String
  descriptor : String
  access : Access := {}
  maxLocals : UInt16 := 0
  maxStack : UInt16 := 0
  code : List UInt8 := []
deriving DecidableEq

/-- A class; its name has no package in front. -/
structure ClassDecl where
  name : String
  constants : ConstantPool := {}
  methods : List MethodDecl := []
deriving DecidableEq

/-- A package; its name has slashes between its parts. -/
structure PackageDecl where
  name : String
  classes : List ClassDecl := []
deriving DecidableEq

/-- Split a full class name at its last slash into package and class. Without a slash the package is
the one with the empty name. -/
def splitClassName (full : String) : String × String :=
  let reversed := full.toList.reverse
  let className := (reversed.takeWhile (· ≠ '/')).reverse
  let package := ((reversed.dropWhile (· ≠ '/')).drop 1).reverse
  (String.ofList package, String.ofList className)

end SlotJit

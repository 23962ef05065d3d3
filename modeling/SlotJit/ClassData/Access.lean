/-!
# Method access flags

A set of flags is a 16-bit word with the values class files use.
-/

namespace SlotJit

/-- The access flags of a method. -/
structure Access where
  bits : UInt16 := 0
deriving DecidableEq, Repr, Inhabited

namespace Access

/-- The flag for methods without a receiver. -/
def staticFlag : Access := ⟨0x8⟩

/-- The flag for methods that the host implements. -/
def nativeFlag : Access := ⟨0x100⟩

/-- The flag for methods without a body. -/
def abstractFlag : Access := ⟨0x400⟩

/-- Every flag with its name. -/
def named : List (String × Access) :=
  [("PUBLIC", ⟨0x1⟩), ("PRIVATE", ⟨0x2⟩), ("PROTECTED", ⟨0x4⟩), ("STATIC", staticFlag),
    ("FINAL", ⟨0x10⟩), ("SYNCHRONIZED", ⟨0x20⟩), ("NATIVE", nativeFlag), ("ABSTRACT", abstractFlag)]

/-- The flag of a name, in any case of its letters. -/
def ofName? (name : String) : Option Access := named.lookup name.toUpper

/-- The flags of both sets. -/
def union (a b : Access) : Access := ⟨a.bits ||| b.bits⟩

/-- Whether every flag of `b` is in `a`. -/
def contains (a b : Access) : Bool := a.bits &&& b.bits == b.bits

/-- The set of the named flags, or the first name that is no flag. -/
def ofNames (names : List String) : Except String Access :=
  names.foldlM (fun access name =>
    match ofName? name with
    | some flag => .ok (access.union flag)
    | none => .error name) {}

/-- Whether the method has no receiver. -/
def isStatic (a : Access) : Bool := a.contains staticFlag

/-- Whether the host implements the method. -/
def isNative (a : Access) : Bool := a.contains nativeFlag

/-- Whether the method has no body. -/
def isAbstract (a : Access) : Bool := a.contains abstractFlag

end Access

end SlotJit

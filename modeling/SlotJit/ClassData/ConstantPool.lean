/-!
# Constant pools

A pool numbers its constants from one. A long or a double takes two indices; the second holds
nothing.
-/

namespace SlotJit

/-- A field or method named by its class, its name and its descriptor. -/
structure MemberRef where
  className : String
  name : String
  descriptor : String
deriving DecidableEq, Repr, Inhabited

/-- An entry of a constant pool. Floating point numbers are bit patterns. -/
inductive Constant where
  | utf8 (text : String)
  | int (value : Int32)
  | long (value : Int64)
  | float (bits : UInt32)
  | double (bits : UInt64)
  | classRef (name : String)
  | methodRef (member : MemberRef)
  | fieldRef (member : MemberRef)
deriving DecidableEq

namespace Constant

/-- Whether the constant takes two indices. -/
def isWide : Constant → Bool
  | long _ | double _ => true
  | _ => false

/-- What a constant puts into the pool: itself, and nothing at its second index if it has one. -/
def entries (c : Constant) : List (Option Constant) :=
  if c.isWide then [some c, none] else [some c]

end Constant

/-- A constant pool; `entries` starts with index one. -/
structure ConstantPool where
  entries : Array (Option Constant) := #[]
deriving DecidableEq

namespace ConstantPool

/-- Number the constants in order. -/
def ofList (constants : List Constant) : ConstantPool :=
  ⟨(constants.flatMap Constant.entries).toArray⟩

/-- The constant at an index, if there is one. -/
def get? (pool : ConstantPool) (index : UInt16) : Option Constant :=
  match index.toNat with
  | 0 => none
  | i + 1 => (pool.entries[i]?).join

/-- Number of indices in use. -/
def size (pool : ConstantPool) : Nat := pool.entries.size

/-- Whether no index is in use. -/
def isEmpty (pool : ConstantPool) : Bool := pool.entries.isEmpty

end ConstantPool

end SlotJit

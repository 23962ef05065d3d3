/-!
# Symbol ids

A symbol id names a method before it has an address: the index of its package, of its class in the
package and of the method in the class. The three indices pack into one 64-bit word.
-/

namespace SlotJit

/-- An index does not fit its field. -/
inductive SymbolError where
  | packageOverflow (index : Nat)
  | classOverflow (index : Nat)
  | memberOverflow (index : Nat)
deriving DecidableEq, Repr

/-- The wording of a symbol error. -/
def SymbolError.message : SymbolError → String
  | packageOverflow index => s!"package index {index} does not fit in 24 bits"
  | classOverflow index => s!"class index {index} does not fit in 24 bits"
  | memberOverflow index => s!"member index {index} does not fit in 16 bits"

/-- Position of a method in the tables: 24 bits of package index, 24 bits of class index and 16 bits
of member index. -/
structure SymbolId where
  package : Fin 0x1000000
  classIndex : Fin 0x1000000
  member : Fin 0x10000
deriving DecidableEq, Repr, Inhabited

namespace SymbolId

/-- The id of a position, if all three indices fit. -/
def ofIndices (package classIndex member : Nat) : Except SymbolError SymbolId :=
  if hp : package < 0x1000000 then
    if hc : classIndex < 0x1000000 then
      if hm : member < 0x10000 then .ok ⟨⟨package, hp⟩, ⟨classIndex, hc⟩, ⟨member, hm⟩⟩
      else .error (.memberOverflow member)
    else .error (.classOverflow classIndex)
  else .error (.packageOverflow package)

/-- The packed word: package above class above member. -/
def raw (id : SymbolId) : UInt64 :=
  UInt64.ofNat (id.package.val * 0x10000000000 + id.classIndex.val * 0x10000 + id.member.val)

/-- The id as listings and messages show it. -/
def text (id : SymbolId) : String :=
  "sym\x7b" ++ s!"{id.package.val},{id.classIndex.val},{id.member.val}" ++ "\x7d"

end SymbolId

end SlotJit

import SlotJit.Bytecode.Instr

/-!
# The symbolic operand stack

Lowering keeps track of what the operand stack would hold. An entry is a literal, the content of a
local variable, a merge slot or a temporary, or the flags of the last compare. Temporaries are
numbered from zero; a freed one is used again before a new one is made, the one freed last first.
-/

namespace SlotJit.Lowering

/-- An entry of the symbolic operand stack. -/
inductive Entry where
  | literal (value : Literal)
  /-- What a local variable holds now. -/
  | localVar (index : Nat) (ty : ValueType)
  /-- What the merge slot of a stack depth holds. -/
  | merge (depth : Nat) (ty : ValueType)
  /-- What a temporary holds. -/
  | tmp (index : Nat) (ty : ValueType)
  /-- The condition flags of the last compare. -/
  | flags
deriving DecidableEq

/-- The type as it stands in the text of an entry. -/
def typeTag : ValueType → String
  | .int => "Int"
  | .long => "Long"
  | .float => "Float"
  | .double => "Double"
  | .ref => "Ref"

namespace Entry

/-- The type of an entry; flags have none. -/
def valueType? : Entry → Option ValueType
  | literal value => some value.valueType
  | localVar _ ty | merge _ ty | tmp _ ty => some ty
  | flags => none

/-- Number of operand stack words an entry takes. -/
def words (e : Entry) : Nat :=
  match e.valueType? with
  | some ty => ty.words
  | none => 1

/-- The entry in words. -/
def text : Entry → String
  | literal (.int value) => s!"Int({value.toInt})"
  | literal (.long value) => s!"Long({value.toInt})"
  | literal (.float bits) => s!"Float({bits.toNat})"
  | literal (.double bits) => s!"Double({bits.toNat})"
  | literal .null => "Null"
  | localVar index ty => s!"Local({index}, " ++ typeTag ty ++ ")"
  | merge depth ty => s!"Merge({depth}, " ++ typeTag ty ++ ")"
  | tmp index ty => s!"Tmp({index}, " ++ typeTag ty ++ ")"
  | flags => "Flags"

end Entry

/-- The symbolic operand stack with its temporaries. -/
structure OperandStack where
  /-- The entries, the top one first. -/
  entries : List Entry := []
  /-- The temporaries that can be used again, the one freed last first. -/
  free : List Nat := []
  /-- Number of temporaries made so far. -/
  tmpCount : Nat := 0
  /-- Depth in words. -/
  words : Nat := 0
deriving DecidableEq

namespace OperandStack

/-- Take a temporary. -/
def alloc (s : OperandStack) : Nat × OperandStack :=
  match s.free with
  | index :: free => (index, { s with free })
  | [] => (s.tmpCount, { s with tmpCount := s.tmpCount + 1 })

/-- Give a temporary back; `none` if it is free already. -/
def release (s : OperandStack) (index : Nat) : Option OperandStack :=
  if index ∈ s.free then none else some { s with free := index :: s.free }

/-- Put an entry on top. -/
def push (s : OperandStack) (e : Entry) : OperandStack :=
  { s with entries := e :: s.entries, words := s.words + e.words }

/-- Take the top entry. A temporary it holds stays taken. -/
def pop? (s : OperandStack) : Option (Entry × OperandStack) :=
  match s.entries with
  | [] => none
  | e :: entries => some (e, { s with entries, words := s.words - e.words })

/-- Give back the temporary an entry holds, if it holds one. -/
def releaseEntry (s : OperandStack) : Entry → Option OperandStack
  | .tmp index _ => s.release index
  | _ => some s

/-- Replace the entries by the merge slots of the given types, the bottom one first. Temporaries on
the stack are given back. -/
def resetTo (s : OperandStack) (types : List ValueType) : Option OperandStack := do
  let s ← s.entries.reverse.foldlM releaseEntry s
  let merged := types.zipIdx.map fun (ty, depth) => Entry.merge depth ty
  return { s with entries := merged.reverse, words := merged.foldr (·.words + ·) 0 }

end OperandStack

end SlotJit.Lowering

import SlotJit.Decimal.Layout
import SlotJit.Ir.Kind
import SlotJit.Symbol

/-!
# Slot code

The body of a method as instructions on the slots of its frame. The first slots are the local
variables, then come the merge slots, one for each word of the operand stack, then the temporaries.
Branches name instructions by index.
-/

namespace SlotJit.Ir

open SlotJit.Decimal SlotJit.Ieee

/-- What an instruction works on. Floating point constants are bit patterns. -/
inductive Operand where
  /-- Index of the instruction to branch to. -/
  | branch (target : Int)
  /-- The condition flags of the last compare. -/
  | flags
  /-- A slot of the frame. -/
  | slot (index : Nat)
  | int (value : Int64)
  | float (bits : UInt32)
  | double (bits : UInt64)
  | symbol (id : SymbolId)
deriving DecidableEq

namespace Operand

/-- The slot an operand names. -/
def slot? : Operand → Option Nat
  | slot index => some index
  | _ => none

/-- Whether the operand is a constant. -/
def isConst : Operand → Bool
  | int _ | float _ | double _ => true
  | _ => false

/-- The operand as listings print it. -/
def text : Operand → String
  | branch target => "@" ++ toString target
  | flags => "flags"
  | slot index => "r" ++ toString index
  | int value => toString value.toInt
  | float bits => Layout.value.text .single bits.toNat ++ "f"
  | double bits => Layout.value.text .double bits.toNat
  | symbol id => id.text

end Operand

/-- Where an instruction stands in the control flow. -/
structure Marks where
  /-- First instruction of a basic block. -/
  leadsBlock : Bool := false
  /-- Reached by a branch, or the entry of the method. -/
  isTarget : Bool := false
deriving DecidableEq, Repr, Inhabited

/-- A slot instruction. Any kind can be put together with any operands; code generation refuses the
combinations that make no sense. -/
structure Inst where
  kind : Kind
  dst : Option Operand := none
  args : List Operand := []
  marks : Marks := {}
deriving DecidableEq

/-- The instruction as listings print it. -/
def Inst.text (i : Inst) : String :=
  (match i.dst with | some dst => dst.text ++ " = " | none => "")
    ++ i.kind.name ++ String.join (i.args.map fun arg => " " ++ arg.text)

/-- The body of a method. -/
structure Body where
  code : List Inst := []
  /-- Number of slots the frame takes. -/
  frameSlots : Nat := 0
deriving DecidableEq

/-- A number at the right of at least four columns. -/
def column (n : Nat) : String :=
  let digits := Nat.toDigits 10 n
  String.ofList (List.replicate (4 - digits.length) ' ' ++ digits)

/-- The line of the instruction at an index, with a blank line in front if it starts a block other
than the first and a star if branches go to it. -/
def Inst.line (inst : Inst) (index : Nat) : String :=
  (if inst.marks.leadsBlock && index != 0 then "\n" else "")
    ++ (if inst.marks.isTarget then "*" else " ")
    ++ column index ++ ": " ++ inst.text ++ "\n"

/-- The listing of a body. -/
def Body.text (b : Body) : String :=
  String.join (b.code.zipIdx.map fun (inst, index) => inst.line index)

end SlotJit.Ir

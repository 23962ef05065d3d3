import SlotJit.Bytecode.Opcode
import SlotJit.Text.Hex
import Std.Data.HashSet

/-!
# Instruction streams

The bytes of a method split into instructions in one way or not at all. `Stream.scan` finds the
split and checks that every branch goes to the start of an instruction.
-/

namespace SlotJit.Bytecode

/-- An instruction with its position. -/
structure Located where
  pc : Nat
  opcode : Opcode
  operands : List UInt8

namespace Located

/-- What the instruction does. -/
def instr (l : Located) : Instr := l.opcode.read l.operands

/-- Position of the instruction after this one. -/
def next (l : Located) : Nat := l.pc + l.opcode.width

/-- Position a branch goes to. -/
def target? (l : Located) : Option Int := l.instr.displacement?.map (l.pc + ·)

end Located

/-- Why bytes are not a stream of instructions. -/
inductive StreamError where
  | unknownOpcode (pc : Nat) (byte : UInt8)
  /-- An instruction whose width depends on its operands. -/
  | variableWidth (pc : Nat) (mnemonic : String)
  | truncated (pc : Nat)
  | misalignedBranch (pc : Nat) (target : Int)
deriving DecidableEq, Repr

/-- The wording of a stream error. -/
def StreamError.message : StreamError → String
  | unknownOpcode pc byte => s!"pc {pc}: unknown opcode 0x" ++ Text.hexPadded 2 byte.toNat
  | variableWidth pc mnemonic => s!"pc {pc}: unsupported opcode {mnemonic}"
  | truncated pc => s!"pc {pc}: truncated instruction"
  | misalignedBranch pc target =>
    s!"pc {pc}: branch target {target} is not an instruction boundary"

/-- Split bytes into instructions, the first at position `pc`. -/
def split (pc : Nat) (code : List UInt8) : Except StreamError (List Located) :=
  match code with
  | [] => .ok []
  | byte :: rest =>
    match Opcode.ofByte? byte with
    | none => .error (.unknownOpcode pc byte)
    | some opcode =>
      if opcode.width = 0 then .error (.variableWidth pc opcode.mnemonic)
      else
        let operands := rest.take (opcode.width - 1)
        if operands.length + 1 < opcode.width then .error (.truncated pc)
        else
          match split (pc + opcode.width) (rest.drop (opcode.width - 1)) with
          | .ok tail => .ok (⟨pc, opcode, operands⟩ :: tail)
          | .error e => .error e
termination_by code.length
decreasing_by
  simp only [List.length_drop, List.length_cons]
  omega

/-- The targets of the branches in a list of instructions, if all of them are among the given
instruction starts. -/
def branchTargets (starts : Std.HashSet Nat) : List Located → Except StreamError (List Nat)
  | [] => .ok []
  | l :: rest =>
    match l.target? with
    | none => branchTargets starts rest
    | some target =>
      if 0 ≤ target ∧ starts.contains target.toNat then
        match branchTargets starts rest with
        | .ok targets => .ok (target.toNat :: targets)
        | .error e => .error e
      else .error (.misalignedBranch l.pc target)

/-- A method's instructions in order, and the positions that branches go to. -/
structure Stream where
  instrs : List Located
  targets : Std.HashSet Nat

/-- Split the bytes of a method and collect its branch targets. -/
def Stream.scan (code : List UInt8) : Except StreamError Stream :=
  match split 0 code with
  | .error e => .error e
  | .ok instrs =>
    match branchTargets (Std.HashSet.ofList (instrs.map Located.pc)) instrs with
    | .error e => .error e
    | .ok targets => .ok { instrs, targets := Std.HashSet.ofList targets }

end SlotJit.Bytecode

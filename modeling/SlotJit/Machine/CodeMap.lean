import SlotJit.CodeMemory.Region
import SlotJit.Machine.Memory
import SlotJit.X64.Decoding
import Std.Data.HashMap

/-!
# Code seen by the processor

Finds the instruction at an address. Regions start at page boundaries and do not share pages, so the
page of an address tells the region.
-/

namespace SlotJit.Machine

open SlotJit.CodeMemory SlotJit.X64

/-- Greatest number of bytes in an instruction. -/
def longestInstr : Nat := 15

/-- The instruction at an offset of a region and its size; nothing if the bytes there are none. -/
def instrAt? (r : Region) (offset : Nat) : Option (Instr × Word) :=
  let bytes := r.window offset longestInstr
  match decode bytes with
  | some (instr, rest) => some (instr, BitVec.ofNat 64 (bytes.length - rest.length))
  | none => none

/-- A region with the instruction at each of its offsets. -/
structure CodeBlock where
  region : Region
  instrs : Array (Thunk (Option (Instr × Word)))

/-- The block of a region. -/
def CodeBlock.ofRegion (region : Region) : CodeBlock :=
  { region, instrs := Array.ofFn fun i : Fin region.size => Thunk.mk fun _ => instrAt? region i }

/-- Code by page. -/
structure CodeMap where
  pages : Std.HashMap Nat CodeBlock := {}

namespace CodeMap

/-- Add a region. -/
def insert (m : CodeMap) (region : Region) : CodeMap :=
  let block := CodeBlock.ofRegion region
  let first := region.base.toNat / pageSize
  let count := pageAligned region.size / pageSize
  { pages := (List.range count).foldl (fun pages i => pages.insert (first + i) block) m.pages }

/-- The instruction at an address and its size. Nothing where there is no code, and an empty answer
where the code is no instruction. -/
def fetch (m : CodeMap) (address : Word) : Option (Option (Instr × Word)) := do
  let block ← m.pages[address.toNat / pageSize]?
  let instr ← block.instrs[address.toNat - block.region.base.toNat]?
  return instr.get

end CodeMap

end SlotJit.Machine

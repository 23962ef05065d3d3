import SlotJit.Codegen.Convention
import SlotJit.Machine.Step
import SlotJit.Proofs.Semantics.Values

/-!
# The native machine

What the machine code of a method does, from the processor's point of view: the processor fetches,
decodes and executes one instruction after the other. The machine halts where control leaves the
method, which is at the jump by which methods return and at the end of the code, and where the
processor traps.

`CodeMap.Shows` says that a region can be executed: wherever in it the processor fetches from, it
gets what the bytes there stand for.
-/

namespace SlotJit.Machine

open SlotJit.CodeMemory

/-- The address of an offset of a region. -/
def regionAddress (region : Region) (offset : Nat) : Word :=
  region.base.toBitVec + BitVec.ofNat 64 offset

/-- Fetching from a region gives what its bytes stand for. -/
def CodeMap.Shows (code : CodeMap) (region : Region) : Prop :=
  ∀ offset < region.size, code.fetch (regionAddress region offset) = some (instrAt? region offset)

/-- Offsets of a region have different addresses. -/
theorem regionAddress_inj {region : Region} (hsize : region.size < mappableSize) {a b : Nat}
    (ha : a ≤ region.size) (hb : b ≤ region.size)
    (h : regionAddress region a = regionAddress region b) : a = b := by
  unfold mappableSize at hsize
  have hnat := congrArg BitVec.toNat (BitVec.add_right_inj _ |>.mp h)
  rwa [BitVec.toNat_ofNat, BitVec.toNat_ofNat, Nat.mod_eq_of_lt (by omega),
    Nat.mod_eq_of_lt (by omega)] at hnat

/-- The page of a block that was added. -/
theorem getElem?_foldl_insert (indices : List Nat) (first key : Nat) (block : CodeBlock)
    (pages : Std.HashMap Nat CodeBlock) :
    (indices.foldl (fun pages i => pages.insert (first + i) block) pages)[first + key]? =
      if key ∈ indices then some block else pages[first + key]? := by
  induction indices generalizing pages with
  | nil => simp
  | cons i rest ih =>
      rw [List.foldl_cons, ih, Std.HashMap.getElem?_insert]
      by_cases hrest : key ∈ rest
      · simp [hrest]
      · by_cases hi : i = key
        · simp [hi]
        · have hne : ¬ key = i := Ne.symm hi
          simp [hrest, hi, hne]

/-- The pages below those of a block that was added. -/
theorem getElem?_foldl_insert_of_lt (indices : List Nat) {first key : Nat} (hkey : key < first)
    (block : CodeBlock) (pages : Std.HashMap Nat CodeBlock) :
    (indices.foldl (fun pages i => pages.insert (first + i) block) pages)[key]? = pages[key]? := by
  induction indices generalizing pages with
  | nil => rfl
  | cons i rest ih =>
      have hne : ¬ first + i = key := by omega
      rw [List.foldl_cons, ih, Std.HashMap.getElem?_insert]
      simp [hne]

/-- A region that was added can be executed. Regions start at pages and do not run past the last
address. -/
theorem shows_insert (code : CodeMap) {region : Region} (hbase : region.base.toNat % pageSize = 0)
    (hsize : region.base.toNat + region.size ≤ addressCount) :
    (code.insert region).Shows region := by
  intro offset hoffset
  unfold pageSize at hbase
  unfold addressCount at hsize
  have haddress : (regionAddress region offset).toNat = region.base.toNat + offset := by
    rw [regionAddress, BitVec.toNat_add, BitVec.toNat_ofNat, UInt64.toNat_toBitVec]
    omega
  have hpage : (region.base.toNat + offset) / pageSize =
      region.base.toNat / pageSize + offset / pageSize := by
    unfold pageSize
    omega
  have hmem : offset / pageSize ∈ List.range (pageAligned region.size / pageSize) := by
    rw [List.mem_range]
    unfold pageAligned pageSize
    omega
  unfold CodeMap.fetch CodeMap.insert
  simp only [haddress, hpage, getElem?_foldl_insert, hmem, if_true, Option.bind_eq_bind,
    Option.bind_some, CodeBlock.ofRegion, Nat.add_sub_cancel_left]
  rw [Array.getElem?_ofFn, dif_pos hoffset]
  rfl

/-- A region can still be executed after another one was added above it. -/
theorem CodeMap.Shows.insert {code : CodeMap} {region above : Region} (h : code.Shows region)
    (hbase : above.base.toNat % pageSize = 0)
    (habove : region.base.toNat + region.size ≤ above.base.toNat) :
    (code.insert above).Shows region := by
  intro offset hoffset
  have hlt := above.base.toNat_lt
  have haddress : (regionAddress region offset).toNat = region.base.toNat + offset := by
    rw [regionAddress, BitVec.toNat_add, BitVec.toNat_ofNat, UInt64.toNat_toBitVec]
    omega
  have hpage : (regionAddress region offset).toNat / pageSize < above.base.toNat / pageSize := by
    rw [haddress]
    unfold pageSize at hbase ⊢
    omega
  rw [← h offset hoffset]
  unfold CodeMap.fetch CodeMap.insert
  rw [getElem?_foldl_insert_of_lt _ hpage]

end SlotJit.Machine

namespace SlotJit.Semantics

open SlotJit.Codegen SlotJit.CodeMemory SlotJit.Machine SlotJit.X64

/-- The jump by which a method returns. -/
def returnJump : Instr := .jmpMem (frameMem (-slotSize))

/-- How the native machine halts. -/
inductive Ending where
  /-- It is at the jump by which the method returns. -/
  | left
  /-- It is at the end of the code. -/
  | ended
  | trapped (signal : Signal)
deriving DecidableEq

namespace NativeMachine

/-- What executing an instruction leads to. -/
def ofProgress : Progress → Step Ending Machine.State
  | .next t => .next t
  | .trap signal t => .halt (.trapped signal) t

/-- One step of the code of a region. -/
def step (hosts : Hosts) (code : CodeMap) (region : Region) (s : Machine.State) :
    Step Ending Machine.State :=
  if s.rip = regionAddress region region.size then .halt .ended s
  else if (code.fetch s.rip).join.map Prod.fst = some returnJump then .halt .left s
  else ofProgress (Machine.step hosts code s)

end NativeMachine

end SlotJit.Semantics

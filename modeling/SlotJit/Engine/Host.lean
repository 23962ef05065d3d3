import SlotJit.Codegen.Convention
import SlotJit.Machine.Step

/-!
# Host functions

The functions outside compiled code that native methods can be bound to, and the one that makes int
arrays. Arguments come in registers; a narrow argument is the low half of its register.
-/

namespace SlotJit.Engine

open SlotJit.Machine

/-- A function that native methods can be bound to. -/
inductive HostFn where
  /-- Difference of two ints. -/
  | isub
  /-- Sum of an int, a long and an int, as a long. -/
  | sum3
  /-- The int itself. -/
  | pass
  /-- The long itself. -/
  | lpass
  /-- Forty-two. -/
  | answer
  /-- Three pairs of an int and a long, folded from zero by `acc * 31 + v`. -/
  | six
  /-- Writes a line with an int. -/
  | log
  /-- Writes a line with a long. -/
  | logLong
  /-- The reference itself. -/
  | ref
  /-- The first reference if the int is zero, else the second. -/
  | pick
  /-- Sum of an int array as a long; minus one for null. -/
  | sum
deriving DecidableEq, Repr

namespace HostFn

/-- The name of a host function. -/
def name : HostFn → String
  | isub => "isub"
  | sum3 => "sum3"
  | pass => "pass"
  | lpass => "lpass"
  | answer => "answer"
  | six => "six"
  | log => "log"
  | logLong => "log_long"
  | ref => "ref"
  | pick => "pick"
  | sum => "sum"

/-- Every host function. -/
def all : List HostFn := [isub, sum3, pass, lpass, answer, six, log, logLong, ref, pick, sum]

/-- The host function of a name. -/
def ofName? (name : String) : Option HostFn := all.find? (·.name == name)

/-- Where a host function is. -/
def address (f : HostFn) : UInt64 := 0x600000000000 + 16 * UInt64.ofNat (all.idxOf f)


/-- An int argument as a long. -/
def intArg (w : Word) : Word := (w.setWidth 32).signExtend 64

/-- An int result in its register. -/
def intResult (w : Word) : Word := (w.setWidth 32).setWidth 64

/-- A result that leaves the heap as it is. -/
def result (heap : Heap) (value : Word) : HostResult := { heap, value }

/-- What a host function does. -/
def apply (f : HostFn) : HostFunction := fun heap args =>
  let arg (i : Nat) : Word := args.getD i 0
  match f with
  | isub => result heap (intResult (arg 0 - arg 1))
  | sum3 => result heap (intArg (arg 0) + arg 1 + intArg (arg 2))
  | pass => result heap (intResult (arg 0))
  | lpass => result heap (arg 0)
  | answer => result heap 42
  | six =>
    let values := [intArg (arg 0), arg 1, intArg (arg 2), arg 3, intArg (arg 4), arg 5]
    result heap (values.foldl (fun acc v => acc * 31 + v) 0)
  | log => { heap, value := some 0, lines := [toString (intArg (arg 0)).toInt] }
  | logLong => { heap, value := some 0, lines := [toString (arg 0).toInt] }
  | ref => result heap (arg 0)
  | pick => result heap (if (arg 0).setWidth 32 = (0 : BitVec 32) then arg 1 else arg 2)
  | sum =>
    if arg 0 = 0 then result heap (-1)
    else
      let array := (heap.index? (arg 0)).bind (heap.arrays[·]?)
      { heap, value := array.map (·.total) }

/-- The host functions by address. -/
def table : Hosts := fun address =>
  (all.find? (·.address == UInt64.ofBitVec address)).map HostFn.apply

end HostFn

/-- Make an int array of zeros in an environment; null for a negative length or no environment. An
address that is not the environment's leads nowhere. -/
def newIntArray : HostFunction := fun heap args =>
  let env := args.getD 0 0
  let length : BitVec 32 := (args.getD 1 0).setWidth 32
  if env = 0 ∨ length.msb then { heap, value := some 0 }
  else if env = BitVec.ofNat 64 heap.place.envBase then
    let (value, heap) := heap.alloc { length := length.toNat }
    { heap, value := some value }
  else { heap, value := none }

/-- The functions that compiled code can call: the one that makes int arrays, and others that native
methods are bound to. -/
def hosts (others : Hosts) : Hosts := fun address =>
  if UInt64.ofBitVec address = Codegen.newIntArrayAddress then some newIntArray else others address

end SlotJit.Engine

import SlotJit.Engine.Host
import SlotJit.Proofs.Codegen.Division
import SlotJit.Proofs.Codegen.HostCalls

/-!
# Arrays

Before an element is read or written its index is compared with the length. One unsigned compare
finds indices past the end and negative ones, since lengths are below `2 ^ 31`. An index in range
then stands for the four bytes at four times the index behind the first element, and a store there
changes no other byte.

A new array is made by a host function, which answers null for a negative length.

## Main results

* `reaches_element`, `reaches_outOfRange`: the two paths of the bounds check.
* `Fragment.gets`, `Fragment.sets`, `Fragment.makes`: what the code does.
* `array_accesses_stay_in_bounds`: all of it.
-/

namespace SlotJit.Codegen

open SlotJit.CodeMemory SlotJit.Ir SlotJit.Machine SlotJit.Semantics SlotJit.Tables SlotJit.X64

/-! ### Indices -/

/-- An index, taken as a signed number, is that of an element. -/
def InRange (x : BitVec 32) (array : IntArray) : Prop := 0 ≤ x.toInt ∧ x.toInt < array.length

/-- An unsigned compare finds the lesser number. -/
theorem holds_b_cmp {size : Size} (x y : BitVec (width size)) :
    (alu .cmp x y).2.holds .b = decide (x.toNat < y.toNat) := rfl

/-- The unsigned compare with a length finds the indices in range. -/
theorem toNat_lt_iff_inRange {x : BitVec 32} {array : IntArray} (hlength : array.length < 2 ^ 31) :
    x.toNat < array.length ↔ InRange x array := by
  have hx := x.isLt
  rw [InRange, BitVec.toInt_eq_toNat_cond]
  split <;> omega

/-! ### The bounds check -/

/-- The code of the bounds check, and of the load of the address of the elements. -/
def elementCore (fresh : Nat) : List Piece :=
  [.instr (.aluLoad .cmp .dword .rcx { base := .rax, disp := arrayLengthOffset }),
    .jump (some .b) fresh, .instr .trap, .label fresh,
    .instr (.load .qword .rax { base := .rax, disp := arrayDataOffset })]

/-- The check of an index is short. -/
theorem compact_elementCore (fresh : Nat) : Compact 5 (elementCore fresh) :=
  ⟨by simp [elementCore], by simp [elementCore]⟩

/-- What the code of an access starts with. -/
theorem arrayElement_eq_ok {inst : Inst} {array index : Operand} {fresh : Nat} {pieces : List Piece}
    (h : arrayElement inst array index fresh = .ok pieces) :
    ∃ loadArray loadIndex, load inst .ref .rax array = .ok loadArray ∧
      load inst .int .rcx index = .ok loadIndex ∧
      pieces = loadArray ++ loadIndex ++ elementCore fresh := by
  obtain ⟨loadArray, harray, h⟩ := bind_eq_ok.mp h
  obtain ⟨loadIndex, hindex, h⟩ := bind_eq_ok.mp h
  cases h
  exact ⟨loadArray, loadIndex, harray, hindex, rfl⟩

/-- The reference and the index are loaded, the index with zeros above. -/
theorem leads_elementOperands {base count : Nat} {frame : Frame} {s : State} {inst : Inst}
    {array index : Operand} {loadArray loadIndex : List Piece} (hs : s.Sees base count frame)
    (hcount : count < 2 ^ 31) (hin : InFrame count inst) (harray : inst.args[0]? = some array)
    (hindex : inst.args[1]? = some index) (hloadArray : load inst .ref .rax array = .ok loadArray)
    (hloadIndex : load inst .int .rcx index = .ok loadIndex) :
    ∃ r x t, operandBits? frame .ref array = some r ∧ operandBits? frame .int index = some x ∧
      Leads (loadArray ++ loadIndex) s t ∧ Aside s t ∧ t.reg .rax = r ∧
      t.reg .rcx = x.setWidth 64 := by
  obtain ⟨r, hr, hleads⟩ := leads_loadPart hs hcount (hin.argument harray) hloadArray
  have haside : Aside s (s.setPart .qword .rax r) := .setReg (.inl rfl) s _
  obtain ⟨x, hx, hleads'⟩ := leads_loadPart (haside.sees hs) hcount (hin.argument hindex) hloadIndex
  refine ⟨r, x, _, hr, hx, hleads.append hleads', haside.trans (.setReg (.inr (.inl rfl)) _ _), ?_,
    State.reg_setReg_same _ _ _⟩
  have hkept : (State.setPart (s.setPart .qword .rax r) .dword .rcx x).reg .rax =
      (s.setPart .qword .rax r).reg .rax := State.reg_setReg_of_ne _ _ _ (by decide)
  exact hkept.trans ((State.reg_setReg_same _ _ _).trans (BitVec.setWidth_eq r))

section Paths

variable {s : State} {k : Nat} {array : IntArray} {x : BitVec 32}

/-- The state after the compare of the index with the length. -/
def bounded (s : State) (x : BitVec 32) (array : IntArray) : State :=
  { s with flags := (@alu .dword .cmp x (BitVec.ofNat 32 array.length)).2 }

/-- The compare of the index with the length. -/
theorem execute_bounds (hmem : s.memory.Addressable) (hrax : s.reg .rax = s.memory.heap.reference k)
    (hrcx : s.reg .rcx = x.setWidth 64) (harray : s.memory.heap.arrays[k]? = some array)
    (hosts : Hosts) (rip : Word) :
    execute hosts { s with rip }
      (.aluLoad .cmp .dword .rcx { base := .rax, disp := arrayLengthOffset }) =
      .next { bounded s x array with rip } := by
  have hk := (Array.getElem?_eq_some_iff.mp harray).1
  have hread : (State.memory { s with rip }).read? .dword
      (State.address { s with rip } { base := .rax, disp := arrayLengthOffset }) =
      some (BitVec.ofNat 64 array.length) := by
    have haddress : State.address { s with rip } { base := .rax, disp := arrayLengthOffset } =
        s.memory.heap.reference k + 8 := by
      rw [← hrax]
      rfl
    show s.memory.read? .dword _ = _
    rw [haddress]
    unfold Memory.read?
    rw [hmem.cell?_length hk]
    simp [harray]
  have hindex : State.regPart { s with rip } .dword .rcx = x := by
    show Word.low .dword (s.reg .rcx) = x
    rw [hrcx]
    exact low_setWidth .dword x
  have hlength : Word.low .dword (BitVec.ofNat 64 array.length) = BitVec.ofNat 32 array.length := by
    rw [Word.low_eq, BitVec.setWidth_ofNat_of_le (by decide)]
  rw [execute, State.loading, hread]
  show Progress.next (State.aluReg { s with rip } .cmp .dword .rcx (Word.low .dword _)) = _
  rw [State.aluReg, hindex, hlength]
  rfl

/-- The condition of the jump past the trap. -/
theorem holds_bounds (hlength : array.length < 2 ^ 31) :
    (some Cond.b).all (bounded s x array).flags.holds = true ↔ InRange x array := by
  have hbound : (BitVec.ofNat 32 array.length).toNat = array.length := by
    rw [BitVec.toNat_ofNat, Nat.mod_eq_of_lt (by omega)]
  rw [Option.all_some, bounded, holds_b_cmp, decide_eq_true_iff, ← toNat_lt_iff_inRange hlength]
  exact iff_of_eq (congrArg (x.toNat < ·) hbound)

/-- An index out of range gets control to the trap. -/
theorem reaches_outOfRange (fresh : Nat) (hmem : s.memory.Addressable)
    (hrax : s.reg .rax = s.memory.heap.reference k) (hrcx : s.reg .rcx = x.setWidth 64)
    (harray : s.memory.heap.arrays[k]? = some array) (hout : ¬ InRange x array) :
    ∃ t, Aside s t ∧ Reaches (elementCore fresh) 0 s 2 t := by
  have hmissed : (some Cond.b).all (bounded s x array).flags.holds = false :=
    Bool.eq_false_iff.mpr
      (mt (holds_bounds (hmem.lengths _ (Array.mem_of_getElem? harray))).mp hout)
  exact ⟨bounded s x array, .flags s _, .instr rfl (execute_bounds hmem hrax hrcx harray)
    (.missed rfl (k := 3) rfl hmissed (.refl 2 _))⟩

/-- An index in range gets control past the check, with the address of the elements in `rax`. -/
theorem reaches_element (fresh : Nat) (hmem : s.memory.Addressable)
    (hrax : s.reg .rax = s.memory.heap.reference k) (hrcx : s.reg .rcx = x.setWidth 64)
    (harray : s.memory.heap.arrays[k]? = some array) (hrange : InRange x array) :
    ∃ t, Aside s t ∧ t.reg .rax = BitVec.ofNat 64 (s.memory.heap.place.elementBase k) ∧
      t.reg .rcx = x.setWidth 64 ∧ Reaches (elementCore fresh) 0 s 5 t := by
  have hk := (Array.getElem?_eq_some_iff.mp harray).1
  let found := (bounded s x array).setReg .rax (BitVec.ofNat 64 (s.memory.heap.place.elementBase k))
  have hload : ∀ hosts rip, execute hosts { bounded s x array with rip }
      (.load .qword .rax { base := .rax, disp := arrayDataOffset }) = .next { found with rip } := by
    intro hosts rip
    have haddress :
        State.address { bounded s x array with rip } { base := .rax, disp := arrayDataOffset } =
        s.memory.heap.reference k := by
      rw [← hrax]
      exact BitVec.add_zero _
    have hread : s.memory.read? .qword (s.memory.heap.reference k) =
        some (BitVec.ofNat 64 (s.memory.heap.place.elementBase k)) := by
      unfold Memory.read?
      rw [hmem.cell?_reference hk]
    rw [execute, State.loading, haddress,
      show (State.memory { bounded s x array with rip }).read? .qword _ = _ from hread]
    rfl
  have htaken := (holds_bounds (s := s) (hmem.lengths _ (Array.mem_of_getElem? harray))).mpr hrange
  refine ⟨found, (Aside.flags s _).trans (.setReg (.inl rfl) _ _), State.reg_setReg_same _ _ _, ?_,
    .instr rfl (execute_bounds hmem hrax hrcx harray)
      (.taken rfl (k := 3) rfl htaken (.label rfl (.instr rfl hload (.refl 5 _))))⟩
  exact (State.reg_setReg_of_ne _ _ _ (by decide)).trans hrcx

/-- The element that `rax` and `rcx` stand for then. -/
theorem address_elementMem {data : Word} (hrax : s.reg .rax = data)
    (hrcx : s.reg .rcx = x.setWidth 64) : s.address elementMem = data + 4 * x.setWidth 64 := by
  have hdisp : data + Word.ofInt32 0 = data := BitVec.add_zero data
  simp only [State.address, elementMem, hrax, hrcx, Word.add_eq, Word.mul_eq, Word.ofScale, hdisp]
  rw [BitVec.mul_comm]

/-- The address of an element, computed. -/
theorem elementAddress_eq (m : Memory) (k : Nat) (x : BitVec 32) :
    BitVec.ofNat 64 (m.heap.place.elementBase k) + 4 * x.setWidth 64 =
      m.elementAddress k x.toNat := by
  apply BitVec.eq_of_toNat_eq
  have hx := x.isLt
  have hfour : (4 : Word).toNat = 4 := rfl
  rw [Memory.elementAddress, BitVec.toNat_add, BitVec.toNat_mul, BitVec.toNat_setWidth, hfour,
    BitVec.toNat_ofNat, BitVec.toNat_ofNat, Nat.mod_eq_of_lt (by omega : x.toNat < 2 ^ 64)]
  omega

end Paths

/-! ### Elements -/

/-- The address of an element as the header of its array gives it: four bytes for each element in
front. -/
def elementAt? (m : Memory) (r : Word) (x : BitVec 32) : Option Word :=
  (m.read? .qword r).map (· + 4 * x.setWidth 64)

section Elements

variable {s : State} {k : Nat} {array : IntArray} {x : BitVec 32}

/-- The address of an element of an array that a reference stands for. -/
theorem elementAt?_reference {m : Memory} (hmem : m.Addressable) (hk : k < m.heap.arrays.size)
    (x : BitVec 32) : elementAt? m (m.heap.reference k) x = some (m.elementAddress k x.toNat) := by
  unfold elementAt? Memory.read?
  rw [hmem.cell?_reference hk, Option.map_some, elementAddress_eq]

/-- Reading an element. -/
theorem read?_element {m : Memory} (hmem : m.Addressable) (harray : m.heap.arrays[k]? = some array)
    (hrange : InRange x array) :
    m.read? .dword (m.elementAddress k x.toNat) = some ((array.get x.toNat).setWidth 64) := by
  have hlength := hmem.lengths _ (Array.mem_of_getElem? harray)
  unfold Memory.read?
  rw [hmem.cell?_element harray ((toNat_lt_iff_inRange hlength).mpr hrange)]
  simp [harray]

/-- An element was written. It has its value, in its array and at its address, and nothing else in
memory is different. -/
structure WritesElement (k i : Nat) (v : BitVec 32) (address : Word) (m m' : Memory) : Prop where
  element : (m'.heap.arrays[k]?).map (·.get i) = some v
  others : ∀ k' j, ¬ (k' = k ∧ j = i) →
    (m'.heap.arrays[k']?).map (·.get j) = (m.heap.arrays[k']?).map (·.get j)
  lengths : ∀ k' : Nat, (m'.heap.arrays[k']?).map IntArray.length =
    (m.heap.arrays[k']?).map IntArray.length
  read : ∀ size a, m'.read? size a =
    if size = .dword ∧ a = address then some (v.setWidth 64) else m.read? size a
  slots : m'.slots = m.slots
  stack : m'.stack = m.stack
  place : m'.heap.place = m.heap.place

/-- A store to an element writes that element alone. -/
theorem writesElement_store {m : Memory} (hmem : m.Addressable)
    (harray : m.heap.arrays[k]? = some array) {i : Nat} (hi : i < array.length) (v : BitVec 32) :
    WritesElement k i v (m.elementAddress k i) m
      (m.store (.element k i) .dword (v.setWidth 64)) := by
  have hstored (k' : Nat) : (m.store (.element k i) .dword (v.setWidth 64)).heap.arrays[k']? =
      if k = k' then (m.heap.arrays[k']?).map (·.set i v) else m.heap.arrays[k']? := by
    rw [Memory.store, Array.getElem?_modify]
    exact congrArg (fun w : BitVec 32 => if k = k' then (m.heap.arrays[k']?).map (·.set i w) else _)
      (low_setWidth .dword v)
  refine ⟨?_, fun k' j hother => ?_, fun k' => ?_, fun size a => ?_, rfl, rfl, rfl⟩
  · rw [hstored, if_pos rfl, harray, Option.map_some, Option.map_some, IntArray.get_set, if_pos rfl]
  · rw [hstored]
    split
    · rename_i heq
      have hne : i ≠ j := fun hsame => hother ⟨heq.symm, hsame.symm⟩
      rw [Option.map_map]
      refine congrArg (Option.map · _) (funext fun b => ?_)
      exact (IntArray.get_set b i j v).trans (if_neg hne)
    · rfl
  · rw [hstored]
    split
    · rw [Option.map_map]
      rfl
    · rfl
  · rw [hmem.read?_store_element harray hi, BitVec.setWidth_setWidth_of_le v (by decide),
      BitVec.setWidth_eq]

/-- The code of a read of an element without its operands and the store of its result. -/
def getCore (fresh : Nat) : List Piece :=
    elementCore fresh ++ [.instr (.load .dword .rax elementMem)]

/-- The code of a write of an element without reference and index. -/
def setCore (fresh : Nat) (loadValue : List Piece) : List Piece :=
  elementCore fresh ++ (loadValue ++ [.instr (.store .dword elementMem .rdx)])

/-- A read of an element with an index in range leaves the element in `rax`. -/
theorem reaches_get (fresh : Nat) (hmem : s.memory.Addressable)
    (hrax : s.reg .rax = s.memory.heap.reference k) (hrcx : s.reg .rcx = x.setWidth 64)
    (harray : s.memory.heap.arrays[k]? = some array) (hrange : InRange x array) :
    ∃ t, Aside s t ∧ t.regPart .dword .rax = array.get x.toNat ∧
      Reaches (getCore fresh) 0 s (getCore fresh).length t := by
  obtain ⟨found, haside, hdata, hindex, hreaches⟩ :=
    reaches_element fresh hmem hrax hrcx harray hrange
  have hload : ∀ hosts rip, execute hosts { found with rip } (.load .dword .rax elementMem) =
      .next { found.setReg .rax ((array.get x.toNat).setWidth 64) with rip } := by
    intro hosts rip
    have haddress :
        State.address { found with rip } elementMem = s.memory.elementAddress k x.toNat :=
      (address_elementMem hdata hindex).trans (elementAddress_eq s.memory k x)
    have hread := read?_element hmem harray hrange
    rw [← haside.memory] at hread
    rw [execute, State.loading, haddress, ← haside.memory,
      show (State.memory { found with rip }).read? .dword _ = _ from hread]
    rfl
  refine ⟨_, haside.trans (.setReg (.inl rfl) _ _), ?_,
    (hreaches.append_right _).trans (.instr rfl hload (.refl 6 _))⟩
  rw [State.regPart, State.reg_setReg_same]
  exact low_setWidth .dword _

/-- A write of an element with an index in range stores the value that is loaded after the check. -/
theorem reaches_set {base count : Nat} {frame : Frame} {inst : Inst} {value : Operand}
    {loadValue : List Piece} (fresh : Nat) (hmem : s.memory.Addressable)
    (hs : s.Sees base count frame) (hcount : count < 2 ^ 31)
    (hin : ∀ index, value = .slot index → index < count)
    (hvalue : load inst .int .rdx value = .ok loadValue)
    (hrax : s.reg .rax = s.memory.heap.reference k) (hrcx : s.reg .rcx = x.setWidth 64)
    (harray : s.memory.heap.arrays[k]? = some array) (hrange : InRange x array) {v : BitVec 32}
    (hv : operandBits? frame .int value = some v) :
    ∃ t, WritesElement k x.toNat v (s.memory.elementAddress k x.toNat) s.memory t.memory ∧
      (∀ r, r ≠ .rax → r ≠ .rcx → r ≠ .rdx → t.reg r = s.reg r) ∧
      Reaches (setCore fresh loadValue) 0 s (setCore fresh loadValue).length t := by
  have hlt := (toNat_lt_iff_inRange (hmem.lengths _ (Array.mem_of_getElem? harray))).mpr hrange
  obtain ⟨found, haside, hdata, hindex, hreaches⟩ :=
    reaches_element fresh hmem hrax hrcx harray hrange
  obtain ⟨v', hv', hleads⟩ := leads_loadPart (haside.sees hs) hcount hin hvalue
  obtain rfl : v' = v := Option.some.inj (hv'.symm.trans hv)
  let loaded := found.setPart (sizeOf .int) .rdx v'
  let written : State :=
    { loaded with memory := loaded.memory.store (.element k x.toNat) .dword (v'.setWidth 64) }
  have hloaded : Aside s loaded := haside.trans (.setReg (.inr (.inr rfl)) _ _)
  have hstore : ∀ hosts rip, execute hosts { loaded with rip } (.store .dword elementMem .rdx) =
      .next { written with rip } := by
    intro hosts rip
    have hdata' : loaded.reg .rax = BitVec.ofNat 64 (s.memory.heap.place.elementBase k) :=
      (State.reg_setReg_of_ne _ _ _ (by decide)).trans hdata
    have hindex' : loaded.reg .rcx = x.setWidth 64 :=
      (State.reg_setReg_of_ne _ _ _ (by decide)).trans hindex
    have haddress :
        State.address { loaded with rip } elementMem = s.memory.elementAddress k x.toNat :=
      (address_elementMem hdata' hindex').trans (elementAddress_eq s.memory k x)
    have hcell := hmem.cell?_element harray hlt
    rw [← hloaded.memory] at hcell
    have hrdx : State.reg { loaded with rip } .rdx = v'.setWidth 64 := State.reg_setReg_same _ _ _
    rw [execute, haddress, ← hloaded.memory,
      State.storing_of_cell (s := { loaded with rip }) hcell rfl, hrdx]
  have hback : Leads _ found written := hleads.append (.single hstore)
  have hpath := (hreaches.append_right _).trans (hback.reaches.append_left (elementCore fresh))
  rw [← List.length_append] at hpath
  refine ⟨written, ?_, hloaded.regs, hpath⟩
  have hmem' := hmem
  rw [← hloaded.memory] at harray hmem' ⊢
  exact writesElement_store hmem' harray hlt v'

end Elements

/-! ### New arrays -/

/-- A host function makes int arrays, whatever it leaves in registers. -/
def MakesArrays (f : HostFunction) : Prop :=
  ∀ heap args, (f heap args).value = (Engine.newIntArray heap args).value ∧
    (f heap args).heap = (Engine.newIntArray heap args).heap

/-- The heap with a new array of zeros. -/
def withArray (heap : Heap) (length : Nat) : Heap :=
  { heap with arrays := heap.arrays.push { length } }

section NewArrays

variable {f : HostFunction} {heap : Heap} {args : List Word} {x : BitVec 32}

/-- A negative length is answered with null. -/
theorem MakesArrays.of_negative (hf : MakesArrays f) (heap : Heap)
    (hx : (args.getD 1 0).setWidth 32 = x)
    (hneg : x.toInt < 0) : (f heap args).value = some 0 ∧ (f heap args).heap = heap := by
  have hmsb : ((args.getD 1 0).setWidth 32).msb = true := by
    rw [hx, BitVec.msb_eq_toInt, decide_eq_true hneg]
  rw [(hf heap args).1, (hf heap args).2, Engine.newIntArray]
  simp only [hmsb, or_true, if_true, and_self]

/-- Any other length gives a reference to an array behind all others, in the environment that is
passed. -/
theorem MakesArrays.of_nonneg (hf : MakesArrays f) (heap : Heap)
    (henv : args.getD 0 0 = BitVec.ofNat 64 heap.place.envBase)
    (hx : (args.getD 1 0).setWidth 32 = x) (hnonneg : 0 ≤ x.toInt) :
    (f heap args).value = some (heap.reference heap.arrays.size) ∧
      (f heap args).heap = withArray heap x.toNat := by
  have hmade : ¬ (args.getD 0 0 = 0 ∨ x.msb = true) := by
    rw [henv, BitVec.msb_eq_toInt, decide_eq_false (Int.not_lt.mpr hnonneg)]
    simpa using heap.place.envBase_ne_zero
  rw [(hf heap args).1, (hf heap args).2, Engine.newIntArray]
  simp only [hx, if_neg hmade, if_pos henv]
  exact ⟨rfl, rfl⟩

/-- A heap has one more array, of some length and all zero. The others are as they were, and none of
them has its reference. -/
structure GainsArray (length : Int) (r : Word) (h h' : Heap) : Prop where
  notNull : r ≠ 0
  fresh : h.index? r = none
  distinct : ∀ k < h.arrays.size, h.reference k ≠ r
  found : h'.index? r = some h.arrays.size
  array : ∃ array, h'.arrays[h.arrays.size]? = some array ∧ array.length = length ∧
    ∀ i, array.get i = 0
  size : h'.arrays.size = h.arrays.size + 1
  others : ∀ k < h.arrays.size, h'.arrays[k]? = h.arrays[k]?
  place : h'.place = h.place

/-- A new array is one more. -/
theorem gainsArray_withArray (hfit : heap.HeadersFit) (hnonneg : 0 ≤ x.toInt) :
    GainsArray x.toInt (heap.reference heap.arrays.size) heap (withArray heap x.toNat) := by
  have hlength : (x.toNat : Int) = x.toInt := by
    rw [BitVec.toInt_eq_toNat_cond] at hnonneg ⊢
    split at hnonneg <;> omega
  have hsize : (withArray heap x.toNat).arrays.size = heap.arrays.size + 1 := Array.size_push _
  obtain ⟨hnotNull, hfresh, hdistinct⟩ := Heap.fresh_reference hfit
  refine ⟨hnotNull, hfresh, hdistinct, ?_,
    ⟨{ length := x.toNat }, Array.getElem?_push_size, hlength, IntArray.get_new x.toNat⟩, hsize,
    fun k hk => ?_, rfl⟩
  · refine Heap.index?_reference (withArray heap x.toNat) ?_ ?_
    · rw [hsize]
      exact hfit
    · rw [hsize]
      exact Nat.lt_succ_self _
  · rw [withArray, Array.getElem?_push, if_neg (Nat.ne_of_lt hk)]

end NewArrays

/-- The trap for an answer of null. -/
def nullCheck (fresh : Nat) : List Piece :=
  [.instr (.test .qword .rax .rax), .jump (some .ne) fresh, .instr .trap, .label fresh]

/-- The check for null is short. -/
theorem compact_nullCheck (fresh : Nat) : Compact 4 (nullCheck fresh) :=
  ⟨by simp [nullCheck], by simp [nullCheck]⟩

/-- The call of a host function is short. -/
theorem compact_callHost (address : UInt64) : Compact 3 (callHost address) :=
  ⟨by simp [callHost], by simp [callHost]⟩

/-- The compare with null. -/
def nullTested (s : State) : State :=
  { s with flags := resultFlags (s.regPart .qword .rax &&& s.regPart .qword .rax) false false }

/-- The check for null jumps if there is an array. -/
theorem holds_nullTested (s : State) :
    (some Cond.ne).all (nullTested s).flags.holds = decide (s.reg .rax ≠ 0) := by
  have hzero : (nullTested s).flags.zero = decide (s.reg .rax = 0) := by
    show ((s.reg .rax &&& s.reg .rax).toNat == 0) = _
    rw [BitVec.and_self, Bool.eq_iff_iff, beq_iff_eq, decide_eq_true_iff, BitVec.toNat_eq]
    rfl
  rw [Option.all_some, Flags.holds, hzero, decide_not]

/-- Null gets control to the trap, and everything else past it. -/
theorem reaches_nullCheck (fresh : Nat) (s : State) :
    (s.reg .rax = 0 → Reaches (nullCheck fresh) 0 s 2 (nullTested s)) ∧
      (s.reg .rax ≠ 0 → Reaches (nullCheck fresh) 0 s 4 (nullTested s)) := by
  have hne := holds_nullTested s
  constructor
  · intro hnull
    refine .instr rfl (t := nullTested s) (fun _ _ => rfl) (.missed rfl (k := 3) rfl ?_ (.refl 2 _))
    rw [hne, decide_eq_false (not_not.mpr hnull)]
  · intro hnull
    refine .instr rfl (t := nullTested s) (fun _ _ => rfl)
      (.taken rfl (k := 3) rfl ?_ (.label rfl (.refl 4 _)))
    rw [hne, decide_eq_true hnull]

/-- What the template of a new array puts together. -/
theorem newIntArrayTemplate_eq_ok {inst : Inst} {fresh : Nat} {part : List Piece}
    (h : newIntArrayTemplate inst fresh = .ok part) :
    ∃ length loads result, inst.args[0]? = some length ∧ load inst .int .rsi length = .ok loads ∧
      store inst .ref .rax = .ok result ∧
      part = ([saveFrame, .instr (.mov .qword .rdi envReg)] ++ loads) ++
        (callHost newIntArrayAddress ++ (nullCheck fresh ++ result)) := by
  obtain ⟨length, hlength, h⟩ := bind_eq_ok.mp h
  obtain ⟨loads, hloads, h⟩ := bind_eq_ok.mp h
  obtain ⟨result, hresult, h⟩ := bind_eq_ok.mp h
  cases h
  exact ⟨length, loads, result, argument_eq_ok hlength, hloads, hresult, by simp [nullCheck]⟩

/-- The environment and the length are put where the host function gets them. -/
theorem leads_newIntArray {base count word : Nat} {frame : Frame} {s : State} {inst : Inst}
    {length : Operand} {loads : List Piece} (hs : s.Sees base count frame) (hcount : count < 2 ^ 31)
    (hin : ∀ index, length = .slot index → index < count)
    (hword : s.memory.cell? (s.reg .rsp) = some (.stack word))
    (hloads : load inst .int .rsi length = .ok loads) :
    ∃ x t, operandBits? frame .int length = some x ∧
      Leads ([saveFrame, .instr (.mov .qword .rdi envReg)] ++ loads) s t ∧
      OnlyRegs [.rdi, .rsi] (spilled s word) t ∧ t.reg .rdi = s.reg envReg ∧
      t.reg .rsi = x.setWidth 64 := by
  let moved := (spilled s word).setReg .rdi (s.reg envReg)
  have hmoved : OnlyRegs [.rdi] (spilled s word) moved := .setReg _ _ _
  have hmove : Leads [.instr (.mov .qword .rdi envReg)] (spilled s word) moved := by
    refine .single fun hosts rip => congrArg Progress.next ?_
    have hpart : BitVec.setWidth 64 (State.regPart { spilled s word with rip } .qword envReg) =
        s.reg envReg :=
      BitVec.setWidth_eq _
    rw [State.setPart, hpart]
    rfl
  obtain ⟨x, hx, hload⟩ :=
    leads_loadPart (hmoved.sees (by decide) (sees_spilled hs word)) hcount hin hloads
  refine ⟨x, _, hx, ((leads_saveFrame hword).append hmove).append hload,
    hmoved.trans (.setReg _ _ _), ?_, State.reg_setReg_same _ _ _⟩
  exact (State.reg_setReg_of_ne _ _ _ (by decide)).trans (State.reg_setReg_same _ _ _)

/-! ### The code of array operations -/

/-- What the template of a read puts together. -/
theorem arrayGetTemplate_eq_ok {inst : Inst} {fresh : Nat} {part : List Piece}
    (h : arrayGetTemplate inst fresh = .ok part) :
    ∃ array index loadArray loadIndex result, inst.args[0]? = some array ∧
      inst.args[1]? = some index ∧
      load inst .ref .rax array = .ok loadArray ∧ load inst .int .rcx index = .ok loadIndex ∧
      store inst .int .rax = .ok result ∧
      part = (loadArray ++ loadIndex) ++ (getCore fresh ++ result) := by
  obtain ⟨array, harray, h⟩ := bind_eq_ok.mp h
  obtain ⟨index, hindex, h⟩ := bind_eq_ok.mp h
  obtain ⟨element, helement, h⟩ := bind_eq_ok.mp h
  obtain ⟨result, hresult, h⟩ := bind_eq_ok.mp h
  cases h
  obtain ⟨loadArray, loadIndex, hloadArray, hloadIndex, rfl⟩ := arrayElement_eq_ok helement
  exact ⟨array, index, loadArray, loadIndex, result, argument_eq_ok harray, argument_eq_ok hindex,
    hloadArray, hloadIndex, hresult, by simp [getCore]⟩

/-- What the template of a write puts together. -/
theorem arraySetTemplate_eq_ok {inst : Inst} {fresh : Nat} {part : List Piece}
    (h : arraySetTemplate inst fresh = .ok part) :
    ∃ array index value loadArray loadIndex loadValue, inst.args[0]? = some array ∧
      inst.args[1]? = some index ∧ inst.args[2]? = some value ∧
      load inst .ref .rax array = .ok loadArray ∧
      load inst .int .rcx index = .ok loadIndex ∧ load inst .int .rdx value = .ok loadValue ∧
      part = (loadArray ++ loadIndex) ++ setCore fresh loadValue := by
  obtain ⟨array, harray, h⟩ := bind_eq_ok.mp h
  obtain ⟨index, hindex, h⟩ := bind_eq_ok.mp h
  obtain ⟨value, hvalue, h⟩ := bind_eq_ok.mp h
  obtain ⟨element, helement, h⟩ := bind_eq_ok.mp h
  obtain ⟨loadValue, hloadValue, h⟩ := bind_eq_ok.mp h
  cases h
  obtain ⟨loadArray, loadIndex, hloadArray, hloadIndex, rfl⟩ := arrayElement_eq_ok helement
  exact ⟨array, index, value, loadArray, loadIndex, loadValue, argument_eq_ok harray,
    argument_eq_ok hindex,
    argument_eq_ok hvalue, hloadArray, hloadIndex, hloadValue, by simp [setCore]⟩

/-- A trap instruction traps. -/
theorem execute_trap (hosts : Hosts) (s : State) (rip : Word) :
    execute hosts { s with rip } .trap = .trap .ill { s with rip } := rfl

namespace Fragment

variable {code : CodeMap} {region : Region} {front core back : List Piece} {place : Nat → Nat}
  {i n : Nat} {s loaded t : State}

/-- Control gets to a trap in the middle of a fragment. -/
theorem traps_in (h : Fragment code region (front ++ (core ++ back)) place)
    (hcompact : Compact n (front ++ (core ++ back))) (hn : n < 2 ^ 20)
    (hfront : Leads front s loaded) (hcore : Reaches core 0 loaded i t)
    (htrap : core[i]? = some (.instr .trap)) (hosts : Hosts) :
    Traps hosts code region { s with rip := regionAddress region (place 0) } fun u =>
      u.memory = t.memory := by
  have hpath := (hfront.reaches.append_right (core ++ back)).trans
    ((hcore.append_right back).append_left front)
  have hpiece : (front ++ (core ++ back))[front.length + i]? = some (.instr .trap) := by
    rw [List.getElem?_append_right (Nat.le_add_right _ _), Nat.add_sub_cancel_left,
      List.getElem?_append_left (List.getElem?_eq_some_iff.mp htrap).1, htrap]
  obtain ⟨m, hrun⟩ := h.run_trap hcompact hn hpath hpiece Instr.noConfusion (execute_trap hosts t)
  exact ⟨m, _, hrun, rfl⟩

/-- Control gets to the end of a fragment. -/
theorem arrives (h : Fragment code region (front ++ core) place)
    (hcompact : Compact n (front ++ core)) (hn : n < 2 ^ 20) (hfront : Leads front s loaded)
    (hcore : Reaches core 0 loaded core.length t)
    (hosts : Hosts) :
    Arrives hosts code region { s with rip := regionAddress region (place 0) }
      (place (front ++ core).length) fun u => u.memory = t.memory ∧ ∀ r, u.reg r = t.reg r := by
  have hpath := (hfront.reaches.append_right core).trans (hcore.append_left front)
  rw [← List.length_append] at hpath
  obtain ⟨m, hrun⟩ := h.run_reaches hcompact hn hpath hosts
  exact ⟨m, _, hrun, rfl, rfl, fun _ => rfl⟩

section Accesses

variable {k base count dst fresh : Nat} {array : IntArray} {x : BitVec 32} {frame : Frame}
  {inst : Inst} {result : List Piece}

/-- A read of an element, with reference and index loaded. -/
theorem gets (h : Fragment code region (front ++ (getCore fresh ++ result)) place)
    (hfront : Compact 2 front) (hs : s.Sees base count frame) (hcount : count < 2 ^ 31)
    (hdst : inst.dst = some (.slot dst)) (hin : dst < count)
    (hresult : store inst .int .rax = .ok result)
    (hleads : Leads front s loaded) (haside : Aside s loaded) (hmem : s.memory.Addressable)
    (hrax : loaded.reg .rax = s.memory.heap.reference k) (hrcx : loaded.reg .rcx = x.setWidth 64)
    (harray : s.memory.heap.arrays[k]? = some array) (hosts : Hosts) :
    (¬ InRange x array →
      Traps hosts code region { s with rip := regionAddress region (place 0) } fun t =>
      t.memory = s.memory) ∧
    (InRange x array → Arrives hosts code region { s with rip := regionAddress region (place 0) }
      (place (front ++ (getCore fresh ++ result)).length)
      (StoresOnly .int (base + dst) (array.get x.toNat) s)) := by
  have hcompact := hfront.append (((compact_elementCore fresh).append
    (compact_instr (.load .dword .rax elementMem))).append (compact_store hresult))
  rw [← haside.memory] at hmem hrax harray
  constructor
  · intro hout
    obtain ⟨t, haside', hreaches⟩ := reaches_outOfRange fresh hmem hrax hrcx harray hout
    have htraps := h.traps_in hcompact (by decide) hleads
      (hreaches.append_right [.instr (.load .dword .rax elementMem)]) rfl hosts
    rwa [haside'.memory, haside.memory] at htraps
  · intro hrange
    obtain ⟨t, haside', hvalue, hreaches⟩ := reaches_get fresh hmem hrax hrcx harray hrange
    obtain ⟨m, u, hrun, hfinish, hstored⟩ :=
      run_stores h hcompact (by decide) hs hcount hdst hin hleads
        haside hreaches haside' (show store inst Integral.int.valueType .rax = _ from hresult) hosts
    exact ⟨m, u, hrun, hfinish, hvalue ▸ hstored⟩

/-- A write of an element, with reference and index loaded. -/
theorem sets {value : Operand} {loadValue : List Piece} {v : BitVec 32}
    (h : Fragment code region (front ++ setCore fresh loadValue) place) (hfront : Compact 2 front)
    (hs : s.Sees base count frame) (hcount : count < 2 ^ 31)
    (hin : ∀ index, value = .slot index → index < count)
    (hvalue : load inst .int .rdx value = .ok loadValue)
    (hv : operandBits? frame .int value = some v)
    (hleads : Leads front s loaded) (haside : Aside s loaded) (hmem : s.memory.Addressable)
    (hrax : loaded.reg .rax = s.memory.heap.reference k) (hrcx : loaded.reg .rcx = x.setWidth 64)
    (harray : s.memory.heap.arrays[k]? = some array) (hosts : Hosts) :
    (¬ InRange x array →
      Traps hosts code region { s with rip := regionAddress region (place 0) } fun t =>
      t.memory = s.memory) ∧
    (InRange x array → Arrives hosts code region { s with rip := regionAddress region (place 0) }
      (place (front ++ setCore fresh loadValue).length) fun t =>
        WritesElement k x.toNat v (s.memory.elementAddress k x.toNat) s.memory t.memory ∧
          ∀ r, r ≠ .rax → r ≠ .rcx → r ≠ .rdx → t.reg r = s.reg r) := by
  have hcompact := hfront.append ((compact_elementCore fresh).append
    ((compact_load hvalue).append (compact_instr (.store .dword elementMem .rdx))))
  have hmemory := haside.memory
  rw [← hmemory] at hmem hrax harray
  constructor
  · intro hout
    obtain ⟨t, haside', hreaches⟩ := reaches_outOfRange fresh hmem hrax hrcx harray hout
    have htraps := h.traps_in hcompact (by decide) hleads hreaches rfl hosts
    rwa [haside'.memory, hmemory] at htraps
  · intro hrange
    obtain ⟨t, hwrites, hregs, hreaches⟩ :=
      reaches_set fresh hmem (haside.sees hs) hcount hin hvalue hrax hrcx harray hrange hv
    obtain ⟨m, u, hrun, hfinish, hmemory', hregs'⟩ :=
      h.arrives hcompact (by decide) hleads hreaches hosts
    refine ⟨m, u, hrun, hfinish, ?_, fun r hr₁ hr₂ hr₃ => ?_⟩
    · rw [hmemory', ← hmemory]
      exact hwrites
    · rw [hregs', hregs r hr₁ hr₂ hr₃, haside.regs r hr₁ hr₂ hr₃]

/-- What is left of a call that makes an array: a trap for null, else the store of the reference. -/
theorem run_made {address : UInt64} {u : State}
    (h : Fragment code region (front ++ (callHost address ++ (nullCheck fresh ++ result))) place)
    (hcompact : Compact n (front ++ (callHost address ++ (nullCheck fresh ++ result))))
    (hn : n < 2 ^ 20) (hu : u.Sees base count frame) (hcount : count < 2 ^ 31)
    (hdst : inst.dst = some (.slot dst)) (hin : dst < count)
    (hresult : store inst .ref .rax = .ok result) (hosts : Hosts) :
    (u.reg .rax = 0 →
      Traps hosts code region
        { u with rip := regionAddress region (place (front.length + 3)) } fun t =>
        t.memory = u.memory) ∧
    (u.reg .rax ≠ 0 →
      Arrives hosts code region { u with rip := regionAddress region (place (front.length + 3)) }
        (place (front ++ (callHost address ++ (nullCheck fresh ++ result))).length) fun t =>
          t.memory = { u.memory with
            slots := u.memory.slots.modify (base + dst) (Value.ref (u.reg .rax)).store } ∧
            ∀ r, t.reg r = u.reg r) := by
  obtain ⟨hnull, hnotNull⟩ := reaches_nullCheck fresh u
  constructor
  · intro hzero
    have hpath :=
      (((hnull hzero).append_right result).append_left (callHost address)).append_left front
    have hpiece : (front ++ (callHost address ++ (nullCheck fresh ++ result)))[front.length + 5]? =
        some (.instr .trap) := by
      rw [List.getElem?_append_right (Nat.le_add_right _ _), Nat.add_sub_cancel_left]
      rfl
    obtain ⟨m, hrun⟩ := h.run_trap hcompact hn hpath hpiece Instr.noConfusion (execute_trap hosts _)
    exact ⟨m, _, hrun, rfl⟩
  · intro hne
    have hsees : (nullTested u).Sees base count frame := ⟨⟨hu.rsi, hu.fits, hu.slotsFit⟩, hu.slots⟩
    have hstore := leads_store hsees hcount hdst hin hresult
    have hback :=
      ((hnotNull hne).append_right result).trans (hstore.reaches.append_left (nullCheck fresh))
    rw [← List.length_append] at hback
    have hpath := (hback.append_left (callHost address)).append_left front
    rw [← List.length_append, ← List.length_append] at hpath
    obtain ⟨m, hrun⟩ := h.run_reaches hcompact hn hpath hosts
    exact ⟨m, _, hrun, rfl, rfl, fun _ => rfl⟩

/-- A new array. -/
theorem makes {word : Nat} {length : Operand} {loads : List Piece}
    (h : Fragment code region (([saveFrame, .instr (.mov .qword .rdi envReg)] ++ loads) ++
      (callHost newIntArrayAddress ++ (nullCheck fresh ++ result))) place)
    (hs : s.Sees base count frame) (hcount : count < 2 ^ 31)
    (hin : ∀ index, length = .slot index → index < count) (hdst : inst.dst = some (.slot dst))
    (hdstIn : dst < count) (hloads : load inst .int .rsi length = .ok loads)
    (hresult : store inst .ref .rax = .ok result) (hmem : s.memory.Addressable)
    (henv : s.reg envReg = BitVec.ofNat 64 s.memory.heap.place.envBase)
    (hword : s.memory.cell? (s.reg .rsp) = some (.stack word)) {hosts : Hosts} {f : HostFunction}
    (hhost : hosts newIntArrayAddress.toBitVec = some f) (hf : MakesArrays f)
    (hx : operandBits? frame .int length = some x) :
    (x.toInt < 0 → Traps hosts code region { s with rip := regionAddress region (place 0) } fun t =>
      t.memory.slots = s.memory.slots ∧ t.memory.heap = s.memory.heap) ∧
    (0 ≤ x.toInt → ∃ r, Arrives hosts code region { s with rip := regionAddress region (place 0) }
      (place (([saveFrame, .instr (.mov .qword .rdi envReg)] ++ loads) ++
        (callHost newIntArrayAddress ++ (nullCheck fresh ++ result))).length) fun t =>
        GainsArray x.toInt r s.memory.heap t.memory.heap ∧
          Deposits (base + dst) (.ref r) s.memory.slots t.memory.slots ∧
          t.reg frameReg = s.reg frameReg) := by
  have hcompact := (((compact_instr (.store .qword spillMem frameReg)).append
    (compact_instr (.mov .qword .rdi envReg))).append (compact_load hloads)).append
      ((compact_callHost newIntArrayAddress).append
        ((compact_nullCheck fresh).append (compact_store hresult)))
  obtain ⟨x', t, hx', hleads, honly, hrdi, hrsi⟩ := leads_newIntArray hs hcount hin hword hloads
  obtain rfl : x' = x := Option.some.inj (hx'.symm.trans hx)
  have hlengthArg : ((hostArguments.map t.reg).getD 1 0).setWidth 32 = x' := by
    show (t.reg .rsi).setWidth 32 = x'
    rw [hrsi]
    exact (BitVec.setWidth_setWidth_of_le x' (by decide)).trans (BitVec.setWidth_eq _)
  constructor
  · intro hneg
    obtain ⟨hvalue, hheap⟩ := hf.of_negative s.memory.heap hlengthArg hneg
    have hplace := congrArg Heap.place hheap
    obtain ⟨m, u, hrun, hresumed⟩ :=
      h.run_hostCall hcompact (by decide) hleads honly (by decide) hword hhost hvalue hplace
    obtain ⟨m', t', hrun', hmemory⟩ :=
      (h.run_made hcompact (by decide) (hresumed.sees hplace hs) hcount hdst
        hdstIn hresult hosts).1 hresumed.rax
    refine ⟨m + m', t', (run_add hrun m').trans hrun', ?_, ?_⟩
    · rw [hmemory, hresumed.slots]
    · rw [hmemory, hresumed.heap, hheap]
  · intro hnonneg
    have henvArg : (hostArguments.map t.reg).getD 0 0 =
        BitVec.ofNat 64 s.memory.heap.place.envBase := hrdi.trans henv
    obtain ⟨hvalue, hheap⟩ := hf.of_nonneg s.memory.heap henvArg hlengthArg hnonneg
    have hplace : (f s.memory.heap (hostArguments.map t.reg)).heap.place = s.memory.heap.place := by
      rw [hheap]
      rfl
    have hgains := gainsArray_withArray hmem.headersFit hnonneg
    obtain ⟨m, u, hrun, hresumed⟩ :=
      h.run_hostCall hcompact (by decide) hleads honly (by decide) hword hhost hvalue hplace
    obtain ⟨m', t', hrun', hfinish, hmemory, hregs⟩ := (h.run_made hcompact (by decide)
      (hresumed.sees hplace hs) hcount hdst hdstIn hresult hosts).2 (hresumed.rax ▸ hgains.notNull)
    have hfits := hs.fits
    refine ⟨s.memory.heap.reference s.memory.heap.arrays.size, m + m', t',
      (run_add hrun m').trans hrun', hfinish, ?_, ?_, ?_⟩
    · rw [hmemory, hresumed.heap, hheap]
      exact hgains
    · rw [hmemory, hresumed.slots, hresumed.rax]
      exact deposits_modify (by omega) _
    · rw [hregs, hresumed.frame]

end Accesses

end Fragment

/-- **Array accesses stay in bounds.** Wherever the code of an array operation is executed, whatever
its operands are and whichever of its slots are the same:

* with a reference to an array, a read and a write trap if the index is negative or not below the
  length, with memory as it was. Otherwise a read stores the element to the destination and changes
  no other byte, and a write changes the four bytes of the element and no other.
* a new array traps if its length is negative, with slots and arrays as they were. Otherwise there
  is one more array, of that length and all zero. The others are as they were, none of them has its
  reference, and the reference is in the destination. -/
theorem array_accesses_stay_in_bounds {code : CodeMap} {region : Region} {inst : Inst}
    {start finish : Nat} (hcode : CodeAt code region inst start finish) {base count : Nat}
    {frame : Frame} {s : State} (hs : s.Sees base count frame) (hcount : count < 2 ^ 31)
    (hin : InFrame count inst) (hrip : s.rip = regionAddress region start)
    (hmem : s.memory.Addressable) (hosts : Hosts) :
    (inst.kind = .intArrayGet → ∃ a b dst r x, inst.args[0]? = some a ∧ inst.args[1]? = some b ∧
      inst.dst = some (.slot dst) ∧ operandBits? frame .ref a = some r ∧
      operandBits? frame .int b = some x ∧
      ∀ k array, s.memory.heap.index? r = some k → s.memory.heap.arrays[k]? = some array →
        (¬ InRange x array → Traps hosts code region s fun t => t.memory = s.memory) ∧
        (InRange x array → ∃ e, elementAt? s.memory r x = some e ∧
          s.memory.read? .dword e = some ((array.get x.toNat).setWidth 64) ∧
          Arrives hosts code region s finish
            (StoresOnly .int (base + dst) (array.get x.toNat) s))) ∧
    (inst.kind = .intArraySet → ∃ a b c r x v, inst.args[0]? = some a ∧ inst.args[1]? = some b ∧
      inst.args[2]? = some c ∧ operandBits? frame .ref a = some r ∧
      operandBits? frame .int b = some x ∧ operandBits? frame .int c = some v ∧
      ∀ k array, s.memory.heap.index? r = some k → s.memory.heap.arrays[k]? = some array →
        (¬ InRange x array → Traps hosts code region s fun t => t.memory = s.memory) ∧
        (InRange x array → ∃ e, elementAt? s.memory r x = some e ∧
          Arrives hosts code region s finish fun t =>
            WritesElement k x.toNat v e s.memory t.memory ∧
            ∀ r, r ≠ .rax → r ≠ .rcx → r ≠ .rdx → t.reg r = s.reg r)) ∧
    (inst.kind = .newIntArray → ∀ f word, hosts newIntArrayAddress.toBitVec = some f →
      MakesArrays f → s.reg envReg = BitVec.ofNat 64 s.memory.heap.place.envBase →
      s.memory.cell? (s.reg .rsp) = some (.stack word) →
      ∃ a dst x, inst.args[0]? = some a ∧ inst.dst = some (.slot dst) ∧
        operandBits? frame .int a = some x ∧ (x.toInt < 0 → Traps hosts code region s fun t =>
          t.memory.slots = s.memory.slots ∧ t.memory.heap = s.memory.heap) ∧
        (0 ≤ x.toInt → ∃ r, Arrives hosts code region s finish fun t =>
          GainsArray x.toInt r s.memory.heap t.memory.heap ∧
          Deposits (base + dst) (.ref r) s.memory.slots t.memory.slots ∧
          t.reg frameReg = s.reg frameReg)) := by
  obtain ⟨site, fresh, part, place, htemplate, hfragment, rfl, rfl⟩ := hcode
  have hstart : { s with rip := regionAddress region (place 0) } = s := by rw [← hrip]
  refine ⟨fun hkind => ?_, fun hkind => ?_, fun hkind f word hhost hf henv hword => ?_⟩
  all_goals rw [template, hkind] at htemplate
  · obtain ⟨a, b, loadArray, loadIndex, result, ha, hb, hloadArray, hloadIndex, hresult, rfl⟩ :=
      arrayGetTemplate_eq_ok htemplate
    obtain ⟨dst, hdst⟩ := dst_of_store hresult
    obtain ⟨r, x, loaded, hr, hx, hleads, haside, hrax, hrcx⟩ :=
      leads_elementOperands hs hcount hin ha hb hloadArray hloadIndex
    refine ⟨a, b, dst, r, x, ha, hb, hdst, hr, hx, fun k array hindex harray => ?_⟩
    obtain ⟨hk, rfl⟩ := (Heap.index?_eq_some_iff hmem.headersFit).mp hindex
    obtain ⟨htraps, harrives⟩ :=
      hfragment.gets ((compact_load hloadArray).append (compact_load hloadIndex)) hs
        hcount hdst (hin.dst dst hdst) hresult hleads haside hmem hrax hrcx harray hosts
    rw [hstart] at htraps harrives
    exact ⟨htraps, fun hrange =>
      ⟨_, elementAt?_reference hmem hk x, read?_element hmem harray hrange, harrives hrange⟩⟩
  · obtain ⟨a, b, c, loadArray, loadIndex, loadValue, ha, hb, hc, hloadArray, hloadIndex,
        hloadValue, rfl⟩ :=
      arraySetTemplate_eq_ok htemplate
    obtain ⟨r, x, loaded, hr, hx, hleads, haside, hrax, hrcx⟩ :=
      leads_elementOperands hs hcount hin ha hb hloadArray hloadIndex
    obtain ⟨v, hv, -⟩ := leads_loadPart hs hcount (hin.argument hc) hloadValue
    refine ⟨a, b, c, r, x, v, ha, hb, hc, hr, hx, hv, fun k array hindex harray => ?_⟩
    obtain ⟨hk, rfl⟩ := (Heap.index?_eq_some_iff hmem.headersFit).mp hindex
    obtain ⟨htraps, harrives⟩ :=
      hfragment.sets ((compact_load hloadArray).append (compact_load hloadIndex)) hs
        hcount (hin.argument hc) hloadValue hv hleads haside hmem hrax hrcx harray hosts
    rw [hstart] at htraps harrives
    exact ⟨htraps, fun hrange => ⟨_, elementAt?_reference hmem hk x, harrives hrange⟩⟩
  · obtain ⟨a, loads, result, ha, hloads, hresult, rfl⟩ := newIntArrayTemplate_eq_ok htemplate
    obtain ⟨dst, hdst⟩ := dst_of_store hresult
    obtain ⟨x, hx, -⟩ := leads_loadPart hs hcount (hin.argument ha) hloads
    have hmakes :=
      hfragment.makes hs hcount (hin.argument ha) hdst (hin.dst dst hdst) hloads hresult hmem henv
        hword hhost hf hx
    rw [hstart] at hmakes
    exact ⟨a, dst, x, ha, hdst, hx, hmakes⟩

/-- A new array of three elements. -/
def makeInst : Inst := { kind := .newIntArray, dst := some (.slot 0), args := [.int 3] }

/-- The element whose index is in a slot replaces the index. -/
def readInst : Inst := { kind := .intArrayGet, dst := some (.slot 1), args := [.slot 0, .slot 1] }

/-- A method that makes an array and reads an element. -/
def arrayMethod : Method :=
  { Lowering.countdown with
    body := { code := [makeInst, readInst, { kind := .ret none, args := [] }], frameSlots := 2 } }

/-- The code of `arrayMethod`. -/
theorem bodyPieces_arrayMethod :
    bodyPieces ⟨Lowering.countdownContext, fun _ => none, 2⟩ arrayMethod.body.code =
      .ok ([.instr (.lea .rax (frameMem 32)),
        .instr (.aluLoad .cmp .qword .rax { base := envReg, disp := limitOffset }),
        .jump (some .be) 4, .instr .trap, .label 4, saveFrame, .instr (.mov .qword .rdi envReg),
        .instr (.movImm .dword .rsi 3)] ++ callHost newIntArrayAddress ++ nullCheck 5 ++
        [.instr (.store .qword (frameMem 8) .rax), .instr (.load .qword .rax (frameMem 8)),
        .instr (.load .dword .rcx (frameMem 16))] ++ getCore 6 ++
        [.instr (.store .dword (frameMem 16) .rax), .instr returnJump]) := by
  simp only [bodyPieces, instructionPieces, labelAt, contains_branchLabels, arrayMethod]
  decide +kernel

/-- Two slots, an array of three elements of which the last is seven, and a native stack of one
word. -/
def arrayMemory (first second : Slot) : Memory :=
  { slots := #[first, second],
    heap := { plainMemory.heap with arrays := #[IntArray.set { length := 3 } 2 7] }, stack := #[0] }

/-- A machine at an address with this memory, whose slots are all of one frame. -/
def arrayState (first second : Slot) (rip : Word) : State :=
  let memory := arrayMemory first second
  let s : State := { regs := .replicate 16 0, xmms := .replicate 16 0, rip, memory }
  ((s.setReg .rsp (BitVec.ofNat 64 memory.heap.place.stackBase)).setReg envReg
    (BitVec.ofNat 64 memory.heap.place.envBase)).setReg frameReg (memory.slotAddress 0)

/-- The frame of `arrayState`. -/
theorem sees_arrayState (first second : Slot) (rip : Word) :
    (arrayState first second rip).Sees 0 2 fun i => if i = 0 then first else second := by
  have hfit : plainMemory.heap.place.slotBase + 16 * 2 ≤ 2 ^ 64 := by decide
  refine ⟨⟨State.reg_setReg_same _ _ _, Nat.le_refl 2, hfit⟩, fun i hi => ?_⟩
  obtain rfl | rfl : i = 0 ∨ i = 1 := by omega
  · rfl
  · rfl

/-- The memory of `arrayState` is addressable. -/
theorem addressable_arrayState (first second : Slot) (rip : Word) :
    (arrayState first second rip).memory.Addressable := by
  refine ⟨?_, ?_⟩
  · have hareas : Apart (Memory.areas (arrayMemory {} {})) := ⟨by decide, by decide⟩
    exact hareas
  · intro array harray
    obtain rfl := Array.mem_singleton.mp harray
    decide

/-- The function that makes arrays, and no other. -/
def arrayHosts : Hosts := Engine.hosts fun _ => none

/-- Element two of the array is seven, element minus one is a trap, and a new array is a second
one. -/
theorem array_accesses_stay_in_bounds_seven :
    ∃ compiled relocations alloc',
      compileMethod Lowering.countdownContext (fun _ => none) { next := Allocator.codeBase }
        arrayMethod.id arrayMethod = (alloc', .ok (compiled, relocations)) ∧
      (∃ start finish, CodeAt (CodeMap.insert {} compiled.code) compiled.code readInst
        start finish ∧ Arrives arrayHosts (CodeMap.insert {} compiled.code) compiled.code
          (arrayState { ref := plainMemory.heap.reference 0 } { scalar := 2 }
            (regionAddress compiled.code start)) finish
          (fun t => (t.memory.slots[1]?).map (Value.ofSlot .int) = some (.int 7)) ∧
        Traps arrayHosts (CodeMap.insert {} compiled.code) compiled.code
          (arrayState { ref := plainMemory.heap.reference 0 } { scalar := -1 }
            (regionAddress compiled.code start)) fun _ => True) ∧
      ∃ start finish, CodeAt (CodeMap.insert {} compiled.code) compiled.code makeInst start finish ∧
        Arrives arrayHosts (CodeMap.insert {} compiled.code) compiled.code
          (arrayState {} {} (regionAddress compiled.code start)) finish
          fun t => t.memory.heap.arrays.size = 2 := by
  obtain ⟨compiled, relocations, alloc', hcompile, hshows⟩ :=
    @exists_shown Lowering.countdownContext (fun _ => none) arrayMethod _ rfl
      bodyPieces_arrayMethod (by decide) (by decide) (by decide)
  refine ⟨compiled, relocations, alloc', hcompile, ?_, ?_⟩
  · obtain ⟨start, finish, hcode⟩ := exists_codeAt hcompile hshows
      (show arrayMethod.body.code[1]? = some readInst from rfl)
    have hin : InFrame 2 readInst := ⟨by simp [readInst], by simp [readInst]⟩
    have hreads (x : Slot) := (array_accesses_stay_in_bounds hcode
      (sees_arrayState { ref := plainMemory.heap.reference 0 } x
        (regionAddress compiled.code start))
      (by decide) hin rfl (addressable_arrayState _ _ _) arrayHosts).1 rfl
    have hindex : (arrayMemory {} {}).heap.index? (plainMemory.heap.reference 0) = some 0 := by
      decide +kernel
    have hseven : (IntArray.set { length := 3 } 2 7).get 2 = 7 :=
      (IntArray.get_set { length := 3 } 2 2 7).trans (if_pos rfl)
    refine ⟨start, finish, hcode, ?_, ?_⟩
    · obtain ⟨a, b, dst, r, x, ha, hb, hdst, hr, hx, hoperation⟩ := hreads { scalar := 2 }
      cases ha
      cases hb
      cases hdst
      obtain rfl := Option.some.inj hr
      cases hx
      have hrange : InRange 2 (IntArray.set { length := 3 } 2 7) := ⟨by decide, by decide⟩
      obtain ⟨e, -, -, n, t, hrun, hfinish, hstored⟩ := (hoperation 0 _ hindex rfl).2 hrange
      exact ⟨n, t, hrun, hfinish,
        hstored.value.trans (congrArg (fun v => some (Value.int v)) hseven)⟩
    · obtain ⟨a, b, dst, r, x, ha, hb, hdst, hr, hx, hoperation⟩ := hreads { scalar := -1 }
      cases ha
      cases hb
      cases hdst
      obtain rfl := Option.some.inj hr
      cases hx
      have hout : ¬ InRange (-1) (IntArray.set { length := 3 } 2 7) :=
        fun h => absurd h.1 (by decide)
      obtain ⟨n, t, hrun, -⟩ := (hoperation 0 _ hindex rfl).1 hout
      exact ⟨n, t, hrun, trivial⟩
  · obtain ⟨start, finish, hcode⟩ := exists_codeAt hcompile hshows
      (show arrayMethod.body.code[0]? = some makeInst from rfl)
    have hin : InFrame 2 makeInst := ⟨by simp [makeInst], by simp [makeInst]⟩
    have hcell : (arrayMemory {} {}).cell? (BitVec.ofNat 64 (plainMemory.heap.place.stackBase)) =
        some (.stack 0) := by
      decide +kernel
    obtain ⟨a, dst, x, ha, hdst, hx, -, hmakes⟩ := (array_accesses_stay_in_bounds hcode
      (sees_arrayState {} {} (regionAddress compiled.code start)) (by decide) hin rfl
      (addressable_arrayState _ _ _) arrayHosts).2.2 rfl Engine.newIntArray 0 rfl
      (fun _ _ => ⟨rfl, rfl⟩)
      rfl hcell
    cases ha
    cases hdst
    cases hx
    obtain ⟨r, n, t, hrun, hfinish, hgains, -⟩ := hmakes (by decide)
    exact ⟨start, finish, hcode, n, t, hrun, hfinish, hgains.size⟩

end SlotJit.Codegen

import SlotJit.Proofs.Codegen.Acceptance
import SlotJit.Proofs.Engine.EntryStub

/-!
# Arguments

Each parameter of a method has a local variable index, and wide ones take two. In the frame of the
method the argument is in the slot with this index, in the part that is the location of its type
(`Receives`). A call from outside writes arguments there before it enters the code through the stub,
and takes the result from `rax` when the code has returned to the stub.

## Main results

* `paramLayout`: parameters do not overlap.
* `written_writeArguments`: what a call from outside writes.
* `receives_of_accepted`: a method that is called from outside receives its arguments.
* `returned_of_resumed`: the result of a call from outside.
-/

namespace SlotJit.Descriptor

/-! ### Where parameters are -/

section Layout

variable {types : List ValueType} {ty : ValueType} {start index : Nat}

/-- There is a local variable for each parameter. -/
theorem length_localIndices (types : List ValueType) (start : Nat) :
    (localIndices start types).length = types.length := by
  induction types generalizing start with
  | nil => rfl
  | cons ty types ih => rw [localIndices, List.length_cons, List.length_cons, ih]

/-- Local variables are counted from the first. -/
theorem le_of_mem_localIndices (h : index ∈ localIndices start types) : start ≤ index := by
  induction types generalizing start with
  | nil => cases h
  | cons ty types ih =>
      rcases List.mem_cons.mp h with rfl | h
      · exact Nat.le_refl _
      · exact Nat.le_trans (Nat.le_add_right _ _) (ih h)

/-- A value ends where a later one starts, or before. -/
theorem add_words_le_localIndices {i j later : Nat} (hij : i < j) (hty : types[i]? = some ty)
    (hi : (localIndices start types)[i]? = some index)
    (hj : (localIndices start types)[j]? = some later) : index + ty.words ≤ later := by
  induction types generalizing start i j with
  | nil => cases hty
  | cons first types ih =>
      obtain ⟨j, rfl⟩ : ∃ k, j = k + 1 := ⟨j - 1, by omega⟩
      rw [localIndices, List.getElem?_cons_succ] at hj
      cases i with
      | zero =>
          cases hty
          cases hi
          exact le_of_mem_localIndices (List.mem_of_getElem? hj)
      | succ i => exact ih (Nat.lt_of_succ_lt_succ hij) hty hi hj

/-- The last value ends where all of them do. -/
theorem getLast?_localIndices (hty : types.getLast? = some ty)
    (hlast : (localIndices start types).getLast? = some index) :
    index + ty.words = start + localsOf types := by
  induction types generalizing start with
  | nil => cases hty
  | cons first types ih =>
      cases types with
      | nil =>
          cases hty
          cases hlast
          rfl
      | cons second rest =>
          rw [List.getLast?_cons_cons] at hty
          rw [localIndices, localIndices, List.getLast?_cons_cons, ← localIndices] at hlast
          rw [ih hty hlast, Nat.add_assoc]
          rfl

end Layout

/-- Parameters have indices of their own. No parameter has an index of another one, be it the second
one of a wide parameter, and the last one ends where the number of indices says. -/
structure ParamLayout (d : Descriptor) : Prop where
  length : d.paramLocals.length = d.paramTypes.length
  distinct : d.paramLocals.Nodup
  wide : ∀ (i : Nat) ty index, d.paramTypes[i]? = some ty → d.paramLocals[i]? = some index →
    ty.isWide = true → index + 1 ∉ d.paramLocals
  last : ∀ ty index, d.paramTypes.getLast? = some ty → d.paramLocals.getLast? = some index →
    index + ty.words = d.paramSlots

/-- Parameters are laid out one after the other. -/
theorem paramLayout (d : Descriptor) : d.ParamLayout := by
  have hlength : d.paramLocals.length = d.paramTypes.length := length_localIndices _ _
  have htype : ∀ {i index : Nat}, d.paramLocals[i]? = some index →
      ∃ ty, d.paramTypes[i]? = some ty := by
    intro i index hi
    have hlt := (List.getElem?_eq_some_iff.mp hi).1
    exact ⟨_, List.getElem?_eq_getElem (hlength ▸ hlt)⟩
  refine ⟨hlength, ?_, fun i ty index hty hi hwide hmem => ?_, fun ty index hty hlast => ?_⟩
  · rw [List.nodup_iff_getElem?_ne_getElem?]
    intro i j hij hj heq
    have hj' := List.getElem?_eq_getElem hj
    obtain ⟨ty, hty⟩ := htype (heq.trans hj')
    have hwords := Lowering.words_pos ty
    have := add_words_le_localIndices hij hty (heq.trans hj') hj'
    omega
  · obtain ⟨j, hj⟩ := List.mem_iff_getElem?.mp hmem
    obtain ⟨later, hlater⟩ := htype hj
    have htwo : ty.words = 2 := by rw [ValueType.words, if_pos hwide]
    have hpos := Lowering.words_pos later
    rcases Nat.lt_trichotomy i j with hij | rfl | hji
    · have := add_words_le_localIndices hij hty hi hj
      omega
    · cases hi.symm.trans hj
    · have := add_words_le_localIndices hji hlater hj hi
      omega
  · exact (getLast?_localIndices hty hlast).trans (Nat.zero_add _)

/-- The indices of parameters are below their number. -/
theorem lt_paramSlots {d : Descriptor} {index : Nat} (h : index ∈ d.paramLocals) :
    index < d.paramSlots := by
  have hlt := Codegen.lt_of_mem_localIndices h
  rwa [Nat.zero_add, List.sum_eq_foldr, List.foldr_map] at hlt

end SlotJit.Descriptor

namespace SlotJit.Engine

open SlotJit.CodeMemory SlotJit.Codegen SlotJit.Machine SlotJit.Tables SlotJit.X64

/-! ### Arguments in slots -/

namespace Value

/-- A value as compiled code has it. -/
def inSlot (v : Value) : Semantics.Value := .ofBits v.valueType v.bits.toBitVec

/-- The type of an argument. -/
@[simp] theorem type_inSlot (v : Value) : v.inSlot.type = v.valueType :=
    Semantics.Value.type_ofBits _ _

/-- The bits of an argument. -/
@[simp] theorem bits_inSlot (v : Value) : v.inSlot.bits = v.bits.toBitVec := by
  have hnarrow : ∀ x : BitVec 32, ((x.setWidth 64).setWidth 32).setWidth 64 = x.setWidth 64 :=
    fun x => by
      rw [BitVec.setWidth_setWidth_of_le x (by decide : 32 ≤ 64), BitVec.setWidth_eq]
  cases v with
  | int x => exact hnarrow x.toBitVec
  | float x => exact hnarrow x.toBitVec
  | long | double | ref => rfl

/-- The type of a result made from bits. -/
@[simp] theorem valueType_ofBits (ty : ValueType) (bits : UInt64) :
    (ofBits ty bits).valueType = ty := by
  cases ty <;> rfl

/-- What is decoded from a register is what compiled code has of it. -/
theorem inSlot_ofBits (ty : ValueType) (w : Word) :
    (ofBits ty (UInt64.ofBitVec w)).inSlot = Semantics.Value.ofBits ty w := by
  cases ty with
  | int | float =>
      show Semantics.Value.ofBits _ (BitVec.setWidth 64 (BitVec.setWidth 32 w)) = _
      simp [Semantics.Value.ofBits]
  | long | double | ref => rfl

end Value

/-- A slot holds a value, in the part where values of its type are. -/
def Holds (slots : Array Slot) (j : Nat) (v : Value) : Prop :=
  (slots[j]?).map (Semantics.Value.ofSlot v.valueType) = some v.inSlot

section Holds

variable {slots slots' : Array Slot} {j : Nat} {v : Value}

/-- What a slot holds depends on that slot alone. -/
theorem Holds.congr (h : Holds slots j v) (heq : slots'[j]? = slots[j]?) : Holds slots' j v := by
  rw [Holds, heq]
  exact h

/-- The value is read at the location of its type. -/
theorem Holds.read? {m : Memory} (h : Holds m.slots j v) (hfit : m.SlotsFit) :
    m.read? (location v.valueType).1 (m.valueAddress v.valueType j) = some v.bits.toBitVec := by
  obtain ⟨slot, hslot, hvalue⟩ := Option.map_eq_some_iff.mp h
  rw [← v.bits_inSlot, ← hvalue]
  exact Memory.read?_valueAddress hfit hslot _

end Holds

/-- Values were written to slots that are given from some slot on, and no other slot has changed. -/
structure Written (start : Nat) (writes : List (Value × Nat))
    (before after : Array Slot) : Prop where
  size : after.size = before.size
  holds : ∀ w ∈ writes, Holds after (start + w.2) w.1
  others : ∀ j, (∀ w ∈ writes, start + w.2 ≠ j) → after[j]? = before[j]?

namespace Written

variable {start index : Nat} {writes : List (Value × Nat)} {before after : Array Slot} {v : Value}

/-- Without arguments nothing is written. -/
theorem nil (start : Nat) (slots : Array Slot) : Written start [] slots slots :=
  ⟨rfl, fun _ h => absurd h List.not_mem_nil, fun _ _ => rfl⟩

/-- A value that is written before others, none of which goes to its slot. -/
theorem cons {f : Slot → Slot} (hf : ∀ slot, Semantics.Value.ofSlot v.valueType (f slot) = v.inSlot)
    (hin : start + index < before.size) (hnew : index ∉ writes.map Prod.snd)
    (h : Written start writes (before.modify (start + index) f) after) :
    Written start ((v, index) :: writes) before after := by
  refine ⟨h.size.trans (Array.size_modify ..), fun w hw => ?_, fun j hj => ?_⟩
  · rcases List.mem_cons.mp hw with rfl | hw
    · have hkept : ∀ w ∈ writes, start + w.2 ≠ start + index := fun w hw heq =>
        hnew (List.mem_map.mpr ⟨w, hw, Nat.add_left_cancel heq⟩)
      rw [Holds, h.others _ hkept, Array.getElem?_modify, if_pos rfl, Array.getElem?_eq_getElem hin,
        Option.map_some, Option.map_some, hf]
    · exact h.holds w hw
  · rw [h.others j fun w hw => hj w (List.mem_cons_of_mem _ hw), Array.getElem?_modify,
      if_neg (hj _ List.mem_cons_self)]

end Written

/-- Arguments that are all within the slots are written. -/
theorem written_writeArguments {slots : Array Slot} {args : List (Value × Nat)}
    (hin : ∀ a ∈ args, 1 + a.2 < slots.size) (hnodup : (args.map Prod.snd).Nodup) :
    ∃ slots', Env.writeArguments slots args = (slots', true) ∧ Written 1 args slots slots' := by
  induction args generalizing slots with
  | nil => exact ⟨slots, rfl, .nil 1 slots⟩
  | cons a rest ih =>
      obtain ⟨v, index⟩ := a
      rw [List.map_cons, List.nodup_cons] at hnodup
      have hfirst := hin _ List.mem_cons_self
      have hput : ∀ slot, Semantics.Value.ofSlot v.valueType (Env.putArgument slot v) =
          v.inSlot := by
        cases v <;> exact fun _ => rfl
      have hothers :
          ∀ a ∈ rest, 1 + a.2 < (slots.modify (1 + index) (Env.putArgument · v)).size := by
        intro a ha
        rw [Array.size_modify]
        exact hin a (List.mem_cons_of_mem _ ha)
      obtain ⟨slots', hwrite, hwritten⟩ := ih hothers hnodup.2
      refine ⟨slots', ?_, hwritten.cons hput hfirst hnodup.1⟩
      rw [Env.writeArguments, if_pos hfirst, hwrite]

/-! ### Entering a method -/

/-- A method is entered with arguments. Control is at its code, the frame base is in its register,
the slot below the frame holds the address to go on at, and each argument is in the slot of its
parameter, at the location of its type. -/
structure Receives (region : Region) (d : Descriptor) (args : List Value) (below : Nat)
    (next : Word) (s : State) : Prop where
  rip : s.rip = regionAddress region 0
  frame : s.reg frameReg = s.memory.slotAddress (below + 1)
  next : s.memory.read? .qword (s.memory.slotAddress below) = some next
  params : ∀ (i : Nat) ty index arg, d.paramTypes[i]? = some ty → d.paramLocals[i]? = some index →
    args[i]? = some arg →
      s.memory.read? (location ty).1 (s.memory.valueAddress ty (below + 1 + index)) =
      some arg.bits.toBitVec

/-- Written arguments and an address below them are what a method receives. -/
theorem Receives.of_written {region : Region} {d : Descriptor} {args : List Value} {below : Nat}
    {next : Word} {s : State} {before after : Array Slot}
    (htypes : args.map Value.valueType = d.paramTypes)
    (hwritten : Written (below + 1) (args.zip d.paramLocals) before after)
    (hslots : s.memory.slots = after.modify below (Semantics.Value.long next).store)
    (hbelow : below < after.size) (hfit : s.memory.SlotsFit) (hrip : s.rip = regionAddress region 0)
    (hframe : s.reg frameReg = s.memory.slotAddress (below + 1)) :
    Receives region d args below next s := by
  refine ⟨hrip, hframe, ?_, fun i ty index arg hty hindex harg => ?_⟩
  · have hslot :
        s.memory.slots[below]? = some ((Semantics.Value.long next).store after[below]) := by
      rw [hslots, Array.getElem?_modify, if_pos rfl, Array.getElem?_eq_getElem hbelow,
        Option.map_some]
    exact Memory.read?_valueAddress hfit hslot .long
  · obtain rfl : arg.valueType = ty := by
      rw [← htypes, List.getElem?_map, harg] at hty
      exact Option.some.inj hty
    have hheld := hwritten.holds (arg, index)
      (List.mem_of_getElem?
        (List.getElem?_zip_eq_some.mpr ⟨harg, hindex⟩ : (args.zip d.paramLocals)[i]? = _))
    refine Holds.read? (hheld.congr ?_) hfit
    rw [hslots, Array.getElem?_modify, if_neg (by omega)]

/-! ### Calls from outside -/

/-- The native stack while the stub waits for a method: the stack pointer is where the stub left it,
and the last word is where its caller waits. -/
structure StubWaits (s : State) : Prop where
  top : s.AtWord (nativeStackWords - 8)
  size : s.memory.stack.size = nativeStackWords
  caller : s.memory.stack[nativeStackWords - 1]? = some callerAddress

section Outside

variable {vm : Vm} {natives : Hosts} {env : Env} {method : Method} {region : Region}
  {args : List Value}

/-- A method that is called from outside receives its arguments, and the stub waits for it. -/
theorem receives_of_accepted (hstub : vm.code.Shows stubRegion)
    (hcaller : vm.code.fetch callerAddress = none)
    (htypes : args.map Value.valueType = method.signature.paramTypes)
    (hroom : 1 + method.signature.paramSlots ≤ env.slots.size)
    (hapart : Apart (env.heap.place.runAreas env.slots.size nativeStackWords)) (natives : Hosts) :
    ∃ slots s, Env.writeArguments env.slots (args.zip method.signature.paramLocals) =
      (slots, true) ∧
      Machine.run (hosts natives) vm.code 13 (Env.entryState slots env.heap region) = .exhausted s ∧
      Receives region method.signature args 0 stubReturn s ∧ StubWaits s := by
  have hlayout := method.signature.paramLayout
  have hlength : args.length = method.signature.paramLocals.length := by
    rw [hlayout.length, ← htypes, List.length_map]
  have hin : ∀ a ∈ args.zip method.signature.paramLocals, 1 + a.2 < env.slots.size := by
    intro a ha
    have := Descriptor.lt_paramSlots (List.of_mem_zip ha).2
    omega
  have hnodup : ((args.zip method.signature.paramLocals).map Prod.snd).Nodup := by
    rw [List.map_snd_zip (Nat.le_of_eq hlength.symm)]
    exact hlayout.distinct
  obtain ⟨slots, hwrite, hwritten⟩ := written_writeArguments hin hnodup
  have hsize := hwritten.size
  have hpos : 0 < slots.size := by omega
  obtain ⟨s, hrun, hs⟩ := run_entry hstub hcaller hpos (hsize.symm ▸ hapart) region (hosts natives)
  have hreceives : Receives region method.signature args 0 stubReturn s :=
    .of_written htypes hwritten hs.slots hpos hs.top.apart.slotsFit hs.rip hs.frame
  exact ⟨slots, s, hwrite, hrun, hreceives, hs.top, hs.size, hs.caller⟩

/-- A method that returns to the stub gives its caller what is in `rax`, at the type of its
result. -/
theorem returned_of_resumed (hstub : vm.code.Shows stubRegion)
    (hcaller : vm.code.fetch callerAddress = none)
    (haccepted : env.checkCall (vm.qualifiedName method.id) method args = .ok region)
    {slots : Array Slot}
    (hwrite : Env.writeArguments env.slots (args.zip method.signature.paramLocals) = (slots, true))
    {n : Nat} {s : State}
    (hrun : Machine.run (hosts natives) vm.code n (Env.entryState slots env.heap region) =
      .exhausted s)
    (hrip : s.rip = stubReturn) (hs : StubWaits s) (spare : Nat) :
    (env.call vm natives (n + (9 + spare)) method args).outcome =
      .returned
        (method.signature.resultType.map (Value.ofBits · (UInt64.ofBitVec (s.reg .rax)))) := by
  obtain ⟨t, hexit, hrax, -, -⟩ :=
    run_exit hstub hcaller hrip hs.top hs.size hs.caller (hosts natives) spare
  rw [Env.call, haccepted]
  simp only [hwrite, run_add_of_exhausted hrun, hexit, Env.leave, hrax]

end Outside

end SlotJit.Engine

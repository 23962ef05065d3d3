import SlotJit.Proofs.Codegen.Acceptance
import SlotJit.Proofs.Lowering.Provenance

/-!
# Slots in reach

A slot is addressed by its byte offset from the frame base, a signed number of 32 bits. Frames are
small, so no offset that a template computes is out of range: neither that of a slot of the frame,
nor that of an argument in the frame of a method that is called, which starts right above. So code
generation fails for other reasons, if at all.

What is needed of an instruction is that it names slots of its frame only and that it has no more
operands than fit on a stack. Lowered code is of this kind, and so `frame_suffices` puts the frame
of a lowered method to the test: the slots that its code names, who writes them, and the offsets
that they get.

## Main results

* `Close.suits`: any instruction in a small frame suits its template but for other reasons.
* `frame_suffices`: the frame of a lowered method.
-/

namespace SlotJit.Codegen

open SlotJit.CodeMemory SlotJit.Ir SlotJit.Lowering SlotJit.Machine SlotJit.Semantics SlotJit.Tables
  SlotJit.X64

/-! ### Operands -/

/-- All slots that an instruction names are near. -/
abbrev Close (inst : Inst) : Prop := InFrame slotBound inst

section Operands

variable {inst : Inst}

/-- An operand of an instruction whose slots are near can be loaded. -/
theorem Close.accepts (h : Close inst) {a : Operand} (ha : a ∈ inst.args) :
    Accepts (· ≠ .slotOverflow) inst a := by
  cases a with
  | slot index => exact .inl (h.args index ha)
  | int | float | double => trivial
  | branch | flags | symbol => exact Error.noConfusion

/-- All operands of such an instruction can be loaded. -/
theorem Close.provides (h : Close inst) (count : Nat) :
    Provides (· ≠ .slotOverflow) inst count := by
  intro place _
  cases hplace : inst.args[place]? with
  | none => exact Error.noConfusion
  | some a => exact h.accepts (List.mem_of_getElem? hplace)

/-- The result of such an instruction can be stored. -/
theorem Close.targets (h : Close inst) : Targets (· ≠ .slotOverflow) inst := by
  unfold Targets
  split
  · exact .inl (h.dst _ ‹_›)
  · exact Error.noConfusion

end Operands

/-! ### Templates -/

section Templates

variable {site : Site} {inst : Inst} {fresh : Nat}

/-- No value takes more than two words. -/
theorem words_le (ty : ValueType) : ty.words ≤ 2 := by
  cases ty <;> decide

/-- Values take at most two words each. -/
theorem sum_words_le (types : List ValueType) :
    (types.map ValueType.words).sum ≤ 2 * types.length := by
  induction types with
  | nil => exact Nat.le_refl _
  | cons ty types ih =>
      have := words_le ty
      rw [List.map_cons, List.sum_cons, List.length_cons]
      omega

/-- As many arguments as an instruction can have are not far apart in their frame. -/
theorem lt_of_mem_paramLocals {callee : Method} {index : Nat} (hargs : inst.args.length ≤ 2 ^ 17)
    (hcount : (inst.args.drop 1).length = callee.signature.paramTypes.length)
    (hindex : index ∈ callee.signature.paramLocals) : index < slotBound := by
  have hlocal := lt_of_mem_localIndices hindex
  have hwords := sum_words_le callee.signature.paramTypes
  rw [List.length_drop] at hcount
  unfold slotBound
  omega

/-- A call fits any method that has as many parameters as the call has arguments. -/
theorem Close.callFits {callee : Method} (h : Close inst) (hargs : inst.args.length ≤ 2 ^ 17) :
    CallFits (· ≠ .slotOverflow) inst callee where
  count := fun _ => Error.noConfusion
  near := fun hcount _ hindex => .inl (lt_of_mem_paramLocals hargs hcount hindex)
  args := fun _ ha => h.accepts (List.mem_of_mem_drop ha)
  result := fun _ _ => h.targets

/-- A call fits its callee or fails for another reason. -/
theorem Close.gives_calleeOf (h : Close inst) (hargs : inst.args.length ≤ 2 ^ 17) :
    Gives (· ≠ .slotOverflow) (CallFits (· ≠ .slotOverflow) inst) (calleeOf site inst) := by
  unfold calleeOf
  split
  · split
    · exact h.callFits hargs
    · exact Error.noConfusion
  · exact Error.noConfusion

/-- In a small frame, the template of an instruction addresses every slot that it needs. -/
theorem Close.suits (h : Close inst) (hargs : inst.args.length ≤ 2 ^ 17)
    (hframe : site.frameSlots < slotBound) : Suits (· ≠ .slotOverflow) site inst := by
  unfold Suits
  cases inst.kind with
  | move | neg | floatNeg | convert | newIntArray | arrayLen => exact ⟨h.provides 1, h.targets⟩
  | floatArith | intArrayGet => exact ⟨h.provides 2, h.targets⟩
  | arith =>
      refine ⟨h.provides 2, h.targets, fun _ b hb => ?_⟩
      cases b with
      | slot index => exact .inl (h.args index (List.mem_of_getElem? hb))
      | int => trivial
      | branch | flags | float | double | symbol => exact Error.noConfusion
  | compare | ret | intArraySet => exact h.provides _
  | jump | jumpIf => exact .inr Error.noConfusion
  | callStatic => exact ⟨h.gives_calleeOf hargs, .inl hframe⟩
  | callNative =>
      refine ⟨h.gives_calleeOf hargs, ?_⟩
      rintro e (_ | _ | _) <;> exact Error.noConfusion

end Templates

/-! ### Bodies -/

/-- A method with a small frame is compiled, or refused for another reason than its slots. -/
theorem gives_compileMethod_of_close {ctx : Context} {natives : Natives} {alloc : Allocator}
    {id : SymbolId} {method : Method}
    (h : ∀ inst ∈ method.body.code, Close inst ∧ inst.args.length ≤ 2 ^ 17)
    (hframe : method.body.frameSlots < slotBound) :
    Gives (· ≠ .slotOverflow) (fun _ => True) (compileMethod ctx natives alloc id method).2 := by
  have hpieces : Gives (· ≠ .slotOverflow) (fun _ => True)
      (bodyPieces ⟨ctx, natives, method.body.frameSlots⟩ method.body.code) :=
    gives_bodyPieces_of_templates (.inl hframe) fun inst hinst _ =>
      (gives_template ((h inst hinst).1.suits (h inst hinst).2 hframe)).mono (fun _ he => he)
        fun _ _ => trivial
  have hassembled :
      Gives (· ≠ .slotOverflow) (fun _ => True) (assembleMethod ctx natives method) := by
    unfold assembleMethod
    split
    · exact Error.noConfusion
    · refine hpieces.bind fun pieces _ => ?_
      split
      · exact Error.noConfusion
      · trivial
  unfold compileMethod
  split
  · exact hassembled.of_error ‹_›
  · split
    · exact Error.noConfusion
    · split
      · exact Error.noConfusion
      · trivial

/-! ### Offsets -/

/-- A computation gives the offset of a slot, and no value in the slot is so far away that adding
its place there wraps around. -/
def GivesOffset (x : Except Error Int32) (slot : Nat) : Prop :=
  ∃ disp, x = .ok disp ∧ ∀ ty, (disp + (location ty).2).toInt = 16 * slot + (location ty).2.toInt

/-- An offset that is exact leaves room for a place in the slot. -/
theorem givesOffset_of_toInt {x : Except Error Int32} {disp : Int32} {slot : Nat}
    (hx : x = .ok disp) (hdisp : disp.toInt = 16 * slot)
    (hslot : slot < 2 ^ 20) : GivesOffset x slot := by
  refine ⟨disp, hx, fun ty => ?_⟩
  have hoffset : (location ty).2.toInt = 0 ∨ (location ty).2.toInt = 8 := by
    cases ty <;> decide
  rw [Int32.toInt_add, hdisp]
  exact Int.bmod_eq_of_le (by omega) (by omega)

/-- The offset of a slot. -/
theorem givesOffset_slotDisp {index : Nat} (h : index < slotBound) :
    GivesOffset (slotDisp index) index := by
  obtain ⟨disp, hdisp, hvalue⟩ := (gives_slotDisp (.inl h)).exists_ok
  have hvalue := hvalue h
  unfold slotBound at h
  exact givesOffset_of_toInt hdisp hvalue (by omega)

/-- The offset of an argument in the frame of a callee, which starts one slot above that of the
caller. -/
theorem givesOffset_argument {frameSlots index : Nat} (hframe : frameSlots < slotBound)
    (hindex : index < slotBound) :
    GivesOffset (do
        let outgoing ← displacement ((← slotDisp frameSlots).toInt + slotSize.toInt)
        displacement (outgoing.toInt + (← slotDisp index).toInt))
      (frameSlots + 1 + index) := by
  obtain ⟨frame, hframeDisp, hframeValue⟩ := (gives_slotDisp (.inl hframe)).exists_ok
  obtain ⟨disp, hdisp, hvalue⟩ := (gives_slotDisp (.inl hindex)).exists_ok
  have hframeValue := hframeValue hframe
  have hvalue := hvalue hindex
  unfold slotBound at hframe hindex
  have hsize : slotSize.toInt = 16 := by decide
  obtain ⟨outgoing, houtgoing, hout⟩ := (gives_displacement
    (n := frame.toInt + slotSize.toInt) (.inl (by omega))).exists_ok
  obtain ⟨place, hplace, hplaceValue⟩ := (gives_displacement
    (n := outgoing.toInt + disp.toInt) (.inl (by omega))).exists_ok
  refine givesOffset_of_toInt
    (bind_eq_ok.mpr ⟨frame, hframeDisp, bind_eq_ok.mpr ⟨outgoing, houtgoing,
    bind_eq_ok.mpr ⟨disp, hdisp, hplace⟩⟩⟩) (by omega) (by omega)

/-! ### Lowered methods -/

/-- The frame of a lowered method suffices. All slots that its code names are in the frame; the
frame has a slot for each local variable and each word of the stack, and no more temporaries than
words. Of these slots, local variables are written by the instructions that assign them and merge
slots by flushes. All offsets that code generation computes are exact: those of the slots of the
frame, of the limit right above it, and of the arguments of calls. So compiling never fails because
a slot is out of reach. -/
theorem frame_suffices {context : Context} {owner : ClassTable} {method : Method} {body : Body}
    (h : lower context owner method = .ok body) :
    (∀ inst ∈ body.code, InFrame body.frameSlots inst) ∧
      method.maxLocals.toNat + method.maxStack.toNat ≤ body.frameSlots ∧
      body.frameSlots ≤ method.maxLocals.toNat + 2 * method.maxStack.toNat ∧
      (∃ stream, Bytecode.Stream.scan method.bytecode = .ok stream ∧ ∀ k inst index,
        body.code[k]? = some inst → inst.dst = some (.slot index) →
          index < method.maxLocals.toNat + method.maxStack.toNat →
            ∃ before l s t, Stage (.of context owner method stream) stream.instrs before l s t ∧
              s.code.size ≤ k ∧ k < t.code.size ∧
              (index < method.maxLocals.toNat → Assigns index l.instr) ∧
              (method.maxLocals.toNat ≤ index → Flushed (.of context owner method stream) l s k)) ∧
      (∀ index ≤ body.frameSlots, GivesOffset (slotDisp index) index) ∧
      (∀ ctx natives, ∀ inst ∈ body.code, ∀ callee,
        calleeOf ⟨ctx, natives, body.frameSlots⟩ inst = .ok callee →
          (inst.args.drop 1).length = callee.signature.paramTypes.length →
            ∀ index ∈ callee.signature.paramLocals,
              GivesOffset (do
                  let outgoing ← displacement ((← slotDisp body.frameSlots).toInt + slotSize.toInt)
                  displacement (outgoing.toInt + (← slotDisp index).toInt))
                (body.frameSlots + 1 + index)) ∧
      ∀ ctx natives alloc id compiled, compiled.body = body →
        (compileMethod ctx natives alloc id compiled).2 ≠ .error .slotOverflow := by
  have hframe : body.frameSlots < slotBound := frameSlots_lt_of_lower h
  have hargs := length_args_of_lower h
  obtain ⟨stream, fin, hlowered⟩ := exists_lowered h
  refine ⟨inFrame_of_lower h, (frameSlots_of_lower h).1, (frameSlots_of_lower h).2, ?_, ?_, ?_, ?_⟩
  · exact ⟨stream, hlowered.scan, fun k inst index hinst hdst hindex =>
      hlowered.origin_of_dst hinst hdst hindex⟩
  · exact fun index hindex => givesOffset_slotDisp (Nat.lt_of_le_of_lt hindex hframe)
  · intro ctx natives inst hinst callee _ hcount index hindex
    exact givesOffset_argument hframe (lt_of_mem_paramLocals (hargs inst hinst) hcount hindex)
  · rintro ctx natives alloc id compiled rfl
    refine fun herror => (gives_compileMethod_of_close (fun inst hinst => ⟨?_, hargs inst hinst⟩)
      hframe).of_error herror rfl
    have hin := inFrame_of_lower h inst hinst
    exact ⟨fun index hindex => Nat.lt_trans (hin.dst index hindex) hframe,
      fun index hindex => Nat.lt_trans (hin.args index hindex) hframe⟩

/-- The frame of `countdown`, and the instruction that counts down. -/
theorem frame_suffices_countdown :
    lower countdownContext countdownOwner countdown = .ok countdownBody ∧
      (∀ inst ∈ countdownBody.code, InFrame 2 inst) ∧ GivesOffset (slotDisp 2) 2 ∧
      ∃ stream before l s t,
        Stage (.of countdownContext countdownOwner countdown stream) stream.instrs before l s t ∧
          s.code.size ≤ 2 ∧ 2 < t.code.size ∧ Assigns 0 l.instr := by
  obtain ⟨hin, -, -, ⟨stream, -, horigin⟩, hoffset, -, -⟩ := frame_suffices lower_countdown
  obtain ⟨before, l, s, t, hstage, hs, ht, hassigns, -⟩ := horigin 2 _ 0 rfl rfl (by decide)
  exact ⟨lower_countdown, hin, hoffset 2 (Nat.le_refl 2), stream, before, l, s, t, hstage, hs, ht,
    hassigns (by decide)⟩

end SlotJit.Codegen

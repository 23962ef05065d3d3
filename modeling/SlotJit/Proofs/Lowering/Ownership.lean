import SlotJit.Proofs.Lowering.Blame
import SlotJit.Proofs.Lowering.Correctness

/-!
# Owners of temporaries

Whatever the bytes of a method, lowering it gives a body or an error that the bytes are to blame
for: no temporary is given back twice, no depth falls below zero and no operand is read beyond the
end of the code. Between two instructions each temporary that was made has one owner, the free list
or a single stack entry, and the depth is the number of words on the stack.

Both follow from what lowering one instruction does to a state in order: it ends in such a state
again (`sound_forM`), or in an error about the instruction (`lower_eq_error`), which is no fault.

## Main results

* `lower_faultless`: lowering of any method.
-/

namespace SlotJit.Lowering

open SlotJit.Bytecode SlotJit.Ir SlotJit.Tables

variable {site : Site} {stack : OperandStack} {s : State} {error : Error}

/-- Each temporary is in the free list, which has it once, or it is held by one stack entry and not
free; and no other temporaries are around. -/
structure OperandStack.OneOwner (stack : OperandStack) : Prop where
  nodup : stack.free.Nodup
  free_lt : ∀ index ∈ stack.free, index < stack.tmpCount
  held_lt : ∀ index ∈ heldTmps stack.entries, index < stack.tmpCount
  owner : ∀ index < stack.tmpCount, index ∈ stack.free ∧ (heldTmps stack.entries).count index = 0 ∨
    index ∉ stack.free ∧ (heldTmps stack.entries).count index = 1

theorem Tidy.oneOwner (h : Tidy site stack stack.entries) : stack.OneOwner := by
  have hnodup : (stack.free ++ heldTmps stack.entries).Nodup :=
    h.owned.nodup_iff.mpr List.nodup_range
  obtain ⟨hfree, hheld, hdisjoint⟩ := List.nodup_append.mp hnodup
  have hmem (index : Nat) :
      index ∈ stack.free ∨ index ∈ heldTmps stack.entries ↔ index < stack.tmpCount := by
    rw [← List.mem_append, h.owned.mem_iff, List.mem_range]
  refine ⟨hfree, fun index hindex => (hmem index).mp (.inl hindex),
    fun index hindex => (hmem index).mp (.inr hindex), fun index hlt => ?_⟩
  rcases (hmem index).mpr hlt with hindex | hindex
  · refine .inl ⟨hindex, List.count_eq_zero.mpr fun hheld => ?_⟩
    exact hdisjoint index hindex index hheld rfl
  · refine .inr ⟨fun hfree => hdisjoint index hfree index hindex rfl, ?_⟩
    exact List.count_eq_one_of_mem hheld hindex

/-! ### Errors -/

/-- Lowering of a whole method never ends in a fault. -/
theorem isFault_of_lower {context : Context} {owner : ClassTable} {method : Method}
    (h : lower context owner method = .error error) : error.isFault = false := by
  rcases lower_eq_error h with ⟨cause, -, rfl⟩ | ⟨stream, -, l, -, hposition⟩
  · rfl
  · exact Error.isFault_of_position hposition

/-! ### States between instructions -/

/-- Lowering of a method returns, and never because it is at fault itself: it gives no temporary
back twice and takes no depth below zero. It reads only bytes that are there. In each state between
two instructions, also of a method that turns out to be wrong further on, temporaries have one owner
each, and the depth is the number of words on the stack and no more than declared. -/
theorem lower_faultless (context : Context) (owner : ClassTable) (method : Method) :
    (∀ error, lower context owner method = .error error → error.isFault = false) ∧
      ∀ stream, Stream.scan method.bytecode = .ok stream →
        (∀ l ∈ stream.instrs, l.Inside method.bytecode) ∧
          ∀ before after s, stream.instrs = before ++ after →
            Yields (before.forM (lowerAt (.of context owner method stream))) {} () s →
              s.stack.OneOwner ∧ s.stack.words = (s.stack.entries.map Entry.words).sum ∧
                s.stack.words ≤ method.maxStack.toNat := by
  refine ⟨fun error => isFault_of_lower, fun stream hscan => ⟨fun l hl => ?_, ?_⟩⟩
  · exact inside_of_fetch? ((scanned_of_scan hscan).fetch l hl)
  · intro before after s _ hyields
    have hsound := sound_forM (sound_empty _) hyields
    exact ⟨hsound.holds.tidy.oneOwner, hsound.holds.words, hsound.holds.depth⟩

/-- Adds one and two, and the sum to itself. -/
def doubled : Method :=
  { name := "doubled", descriptor := "()I", signature := ⟨[], some .int⟩, access := ⟨8⟩,
    id := default, maxLocals := 0, maxStack := 2, bytecode := [0x04, 0x05, 0x60, 0x59, 0x60, 0xac] }

/-- The instructions of `doubled`. -/
def doubledStream : Stream :=
  { instrs :=
      [⟨0, ⟨0x04, "iconst_1", 1, fun _ => .push (.int 1)⟩, []⟩,
        ⟨1, ⟨0x05, "iconst_2", 1, fun _ => .push (.int 2)⟩, []⟩,
        ⟨2, ⟨0x60, "iadd", 1, fun _ => .binary .int .add⟩, []⟩,
        ⟨3, ⟨0x59, "dup", 1, fun _ => .dup⟩, []⟩,
        ⟨4, ⟨0x60, "iadd", 1, fun _ => .binary .int .add⟩, []⟩,
        ⟨5, ⟨0xac, "ireturn", 1, fun _ => .ret (some .int)⟩, []⟩]
    targets := ∅ }

theorem scan_doubled : Stream.scan doubled.bytecode = .ok doubledStream := by
  have hone : Opcode.ofByte? 0x04 = some ⟨0x04, "iconst_1", 1, fun _ => .push (.int 1)⟩ := rfl
  have htwo : Opcode.ofByte? 0x05 = some ⟨0x05, "iconst_2", 1, fun _ => .push (.int 2)⟩ := rfl
  have hadd : Opcode.ofByte? 0x60 = some ⟨0x60, "iadd", 1, fun _ => .binary .int .add⟩ := rfl
  have hdup : Opcode.ofByte? 0x59 = some ⟨0x59, "dup", 1, fun _ => .dup⟩ := rfl
  have hret : Opcode.ofByte? 0xac = some ⟨0xac, "ireturn", 1, fun _ => .ret (some .int)⟩ := rfl
  simp [doubled, Stream.scan, split, branchTargets, Located.target?, Located.instr,
    Instr.displacement?, doubledStream, hone, htwo, hadd, hdup, hret]

/-- Before it returns, `doubled` has its result in the first temporary, and the second one is
free. -/
theorem exists_yields_doubled : ∃ s, Yields ((doubledStream.instrs.take 5).forM
      (lowerAt (.of countdownContext countdownOwner doubled doubledStream))) {} () s ∧
    s.stack.entries = [.tmp 0 .int] ∧ s.stack.free = [1] := by
  have hends : (((doubledStream.instrs.take 5).forM
      (lowerAt (.of countdownContext countdownOwner doubled doubledStream))).run {} >>= fun r =>
        .ok (r.2.stack.entries, r.2.stack.free)) = .ok ([.tmp 0 .int], [1]) := by cbv
  obtain ⟨⟨⟨⟩, s⟩, hrun, hs⟩ := bind_eq_ok.mp hends
  obtain ⟨hentries, hfree⟩ := Prod.mk.inj (Except.ok.inj hs)
  exact ⟨s, hrun, hentries, hfree⟩

/-- The temporaries of `doubled` before it returns. -/
theorem lower_faultless_doubled :
    (∃ s, Yields ((doubledStream.instrs.take 5).forM
        (lowerAt (.of countdownContext countdownOwner doubled doubledStream))) {} () s ∧
      s.stack.entries = [.tmp 0 .int] ∧ s.stack.free = [1] ∧ s.stack.OneOwner ∧ s.stack.words = 1) ∧
    ∀ l ∈ doubledStream.instrs, l.Inside doubled.bytecode := by
  obtain ⟨-, hstates⟩ := lower_faultless countdownContext countdownOwner doubled
  obtain ⟨hinside, hstates⟩ := hstates doubledStream scan_doubled
  obtain ⟨s, hyields, hentries, hfree⟩ := exists_yields_doubled
  obtain ⟨howner, hwords, -⟩ := hstates _ (doubledStream.instrs.drop 5) s
    (List.take_append_drop 5 doubledStream.instrs).symm hyields
  refine ⟨⟨s, hyields, hentries, hfree, howner, ?_⟩, hinside⟩
  rw [hwords, hentries]
  rfl

end SlotJit.Lowering

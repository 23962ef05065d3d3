import SlotJit.Proofs.Bytecode.Splits
import SlotJit.Proofs.Semantics.StackMachine

/-!
# Instructions of a stream

What is known of the instructions that `Stream.scan` finds: they follow one another without gaps
from the first byte to the last (`Contiguous`), each is what the stack machine fetches at its
position, and every branch goes to one of them. The operands of each are read from its own bytes,
which all are in the code (`Located.Inside`).
-/

namespace SlotJit.Bytecode

open SlotJit.Semantics

/-- Instructions that follow one another from a position to another. -/
inductive Contiguous : Nat → List Located → Nat → Prop
  | nil (pc : Nat) : Contiguous pc [] pc
  | cons (l : Located) {rest : List Located} {stop : Nat} (h : Contiguous l.next rest stop) :
      Contiguous l.pc (l :: rest) stop

/-- No instructions end where they start. -/
theorem Contiguous.eq_of_nil {pc stop : Nat} (h : Contiguous pc [] stop) : stop = pc := by
  cases h
  rfl

/-- Instructions that follow one another can be cut anywhere. -/
theorem Contiguous.exists_append {pc stop : Nat} {first rest : List Located}
    (h : Contiguous pc (first ++ rest) stop) :
    ∃ cut, Contiguous pc first cut ∧ Contiguous cut rest stop := by
  induction first generalizing pc with
  | nil => exact ⟨pc, .nil pc, h⟩
  | cons l first ih =>
      cases h with
      | cons _ h =>
          obtain ⟨cut, hfirst, hrest⟩ := ih h
          exact ⟨cut, .cons l hfirst, hrest⟩

/-- The instructions that bytes split into follow one another. -/
theorem Splits.contiguous {pc : Nat} {code : List UInt8} {instrs : List Located}
    (h : Splits pc code instrs) : Contiguous pc instrs (pc + code.length) := by
  induction h with
  | nil pc => exact .nil pc
  | @cons pc byte opcode operands rest instrs assigned width _ ih =>
      have hstop : pc + opcode.width + rest.length = pc + (byte :: (operands ++ rest)).length := by
        simp only [List.length_cons, List.length_append]
        omega
      exact .cons ⟨pc, opcode, operands⟩ (hstop ▸ ih)

/-- Each instruction that bytes split into is the one at its position. -/
theorem Splits.fetch? {pc : Nat} {code whole : List UInt8} {instrs : List Located}
    (h : Splits pc code instrs) (hcode : whole.drop pc = code) :
    ∀ l ∈ instrs, fetch? whole l.pc = some l := by
  induction h with
  | nil => exact fun l hl => absurd hl List.not_mem_nil
  | @cons pc byte opcode operands rest instrs assigned width _ ih =>
      refine List.forall_mem_cons.mpr ⟨?_, ih ?_⟩
      · have htake : (operands ++ rest).take (opcode.width - 1) = operands :=
          List.take_left' (by omega)
        have hlong : ¬ (opcode.width = 0 ∨ operands.length + rest.length + 1 < opcode.width) := by
          omega
        simp [Semantics.fetch?, hcode, assigned, hlong, htake]
      · rw [← List.drop_drop, hcode, ← width, List.drop_succ_cons, List.drop_left]

/-- An instruction that was fetched takes up some bytes. -/
theorem lt_next_of_fetch? {code : List UInt8} {pc : Nat} {l : Located}
    (h : fetch? code pc = some l) : l.pc < l.next := by
  unfold fetch? at h
  split at h
  · cases h
  · obtain ⟨opcode, -, h⟩ := Option.bind_eq_some_iff.mp h
    split at h
    · cases h
    · rename_i hwidth
      cases h
      simp only [Located.next]
      omega

/-! ### Operands -/

set_option maxRecDepth 2000 in
/-- The rows of the table read no byte beyond the width. -/
theorem map_read : Opcode.all.map (fun o a b c d more =>
      o.read ([a, b, c, d].take (o.width - 1) ++ more)) =
    Opcode.all.map fun o a b c d _ => o.read ([a, b, c, d].take (o.width - 1)) := rfl

/-- What follows the operand bytes makes no difference. -/
theorem read_append {o : Opcode} (ho : o ∈ Opcode.all) {operands : List UInt8}
    (h : operands.length + 1 = o.width) (more : List UInt8) :
    o.read (operands ++ more) = o.read operands := by
  have hwidth := width_le ho
  obtain ⟨a, b, c, d, hoperands⟩ := exists_take operands (by omega)
  have hread := congrFun (congrFun (congrFun (congrFun (congrFun
    (List.map_inj_left.mp map_read o ho) a) b) c) d) more
  rwa [← h, Nat.add_sub_cancel, ← hoperands] at hread

/-- An instruction is inside some code: its operands are the bytes after the opcode, none of them is
missing, and no other byte is read. -/
structure Located.Inside (code : List UInt8) (l : Located) : Prop where
  next_le : l.next ≤ code.length
  operands : l.operands = (code.drop (l.pc + 1)).take (l.opcode.width - 1)
  complete : l.operands.length + 1 = l.opcode.width
  read : ∀ more, l.opcode.read (l.operands ++ more) = l.instr

/-- An instruction that is fetched is inside the code. -/
theorem inside_of_fetch? {code : List UInt8} {l : Located} (h : fetch? code l.pc = some l) :
    l.Inside code := by
  unfold fetch? at h
  split at h
  · cases h
  · rename_i byte rest hdrop
    obtain ⟨opcode, hopcode, h⟩ := Option.bind_eq_some_iff.mp h
    split at h
    · cases h
    · rename_i hwidth
      have hl := Option.some.inj h
      have hop : opcode = l.opcode := congrArg Located.opcode hl
      have hoperands : rest.take (opcode.width - 1) = l.operands := congrArg Located.operands hl
      subst hop
      have hcomplete : l.operands.length + 1 = l.opcode.width := by
        rw [← hoperands, List.length_take]
        omega
      have hlength := congrArg List.length hdrop
      rw [List.length_drop, List.length_cons] at hlength
      refine ⟨?_, ?_, hcomplete, read_append (List.mem_of_find?_eq_some hopcode) hcomplete⟩
      · rw [Located.next]
        omega
      · rw [← hoperands, ← List.drop_drop, hdrop, List.drop_one, List.tail_cons]

/-! ### Streams -/

/-- What is known of a stream. -/
structure Scanned (code : List UInt8) (stream : Stream) : Prop where
  contiguous : Contiguous 0 stream.instrs code.length
  fetch : ∀ l ∈ stream.instrs, fetch? code l.pc = some l
  targets : ∀ l ∈ stream.instrs, ∀ target, l.target? = some target →
    0 ≤ target ∧ stream.targets.contains target.toNat ∧ ∃ l' ∈ stream.instrs, l'.pc = target.toNat

/-- What scanning gives. -/
theorem scanned_of_scan {code : List UInt8} {stream : Stream} (h : Stream.scan code = .ok stream) :
    Scanned code stream := by
  obtain ⟨hsplits, hlands⟩ := scan_eq_ok_iff.mp ⟨stream, h, rfl⟩
  refine ⟨Nat.zero_add code.length ▸ hsplits.contiguous, hsplits.fetch? rfl,
    fun l hl target htarget => ?_⟩
  rw [hsplits.target?_eq l hl] at htarget
  obtain ⟨l', hl', rfl⟩ := hlands l hl target htarget
  refine ⟨Int.natCast_nonneg _, ?_, l', hl', (Int.toNat_natCast _).symm⟩
  rw [Int.toNat_natCast, ← Std.HashSet.mem_iff_contains, mem_targets_iff h]
  exact ⟨l, hl, htarget⟩

end SlotJit.Bytecode

import SlotJit.Proofs.Bytecode.Splits
import SlotJit.Proofs.Lowering.Provenance

/-!
# Which errors are left to lowering

Before a method is lowered its bytes are scanned, and lowering relies on what the scan found: it
reads operands without asking whether they are there, and at the end it looks up the position of
each branch target. So the errors of lowering are of two kinds. Those of the stream are the scan's
and tell what is wrong with the bytes. All others are raised for an instruction and name its
position; no branch is left without a target.

## Main results

* `exists_resolved`: every branch that was emitted has a target.
* `lower_eq_error`, `lower_eq_stream_iff`: the errors of lowering and those of the scan.
* `scan_decodes_streams`: what a scan accepts, what it gives, and why it rejects the rest.
-/

namespace SlotJit.Lowering

open SlotJit.Bytecode SlotJit.Ir SlotJit.Tables

variable {α β : Type} {site : Site} {pc : Nat} {s t fin : State} {e : Entry} {ty : ValueType}
  {error : Error} {l : Located}

/-! ### Methods -/

section Resolution

variable {context : Context} {owner : ClassTable} {method : Method} {stream : Stream}

/-- What was emitted for a stream is resolved: its branches go to positions of instructions, and
these all have a place in the code. -/
theorem exists_resolved (hscan : Stream.scan method.bytecode = .ok stream)
    (hfin : Yields (stream.instrs.forM (lowerAt site)) {} () fin) :
    ∃ code, fin.code.toList.mapM (resolve fin.positions) = .ok code := by
  have hresolve : ∀ e ∈ fin.code.toList, ∀ error, resolve fin.positions e ≠ .error error := by
    intro e he error
    obtain ⟨k, hk⟩ := List.mem_iff_getElem?.mp he
    rw [Array.getElem?_toList] at hk
    have hlt : k < fin.code.size := (Array.getElem?_eq_some_iff.mp hk).1
    obtain ⟨before, l, s, t, hstage, hs, ht⟩ := exists_stage hfin hlt
    rw [hstage.getElem? hfin ht] at hk
    cases e with
    | inst => simp [resolve]
    | branch condition pc target =>
        obtain ⟨after, hinstrs, -⟩ := hstage.rest hfin
        have hl : l ∈ stream.instrs := by simp [hinstrs]
        rcases origin_of_lowerAt hstage.sound hstage.lowered hs hk with
          ⟨-, hshifts⟩ | hown | ⟨_, goes, htarget, heq⟩
        · exact hshifts.elim
        · exact hown.elim
        · cases heq
          obtain ⟨-, -, l', hl', hpc⟩ := (scanned_of_scan hscan).targets l hl goes htarget
          obtain ⟨index, hindex, -⟩ :=
            (positions_of_forM (sound_empty site) hfin).2 goes.toNat (hpc ▸ List.mem_map_of_mem hl')
          cases condition <;> simp [resolve, hindex]
  cases hcode : fin.code.toList.mapM (resolve fin.positions) with
  | ok code => exact ⟨code, rfl⟩
  | error error =>
      obtain ⟨e, he, herror⟩ := exists_of_mapM_error hcode
      exact absurd herror (hresolve e he error)

/-- An error of lowering is the scan's, or it is about an instruction of the stream. -/
theorem lower_eq_error (h : lower context owner method = .error error) :
    (∃ cause, Stream.scan method.bytecode = .error cause ∧ error = .stream cause) ∨
      ∃ stream, Stream.scan method.bytecode = .ok stream ∧
        ∃ l ∈ stream.instrs, error.position? = some l.pc := by
  unfold lower at h
  split at h
  · rename_i cause hscan
    cases h
    exact .inl ⟨cause, hscan, rfl⟩
  · rename_i stream hscan
    refine .inr ⟨stream, hscan, ?_⟩
    rcases bind_eq_error.mp h with h | ⟨⟨⟨⟩, fin⟩, hfin, h⟩
    · exact exists_position (sound_empty _) h
    · obtain ⟨code, hcode⟩ := exists_resolved hscan hfin
      rcases bind_eq_error.mp h with h | ⟨_, -, h⟩
      · cases hcode.symm.trans h
      · cases h

/-- Errors of the stream are those of the scan. -/
theorem lower_eq_stream_iff {cause : StreamError} :
    lower context owner method = .error (.stream cause) ↔
    Stream.scan method.bytecode = .error cause := by
  constructor
  · intro h
    rcases lower_eq_error h with ⟨_, hscan, heq⟩ | ⟨_, -, l, -, hposition⟩
    · cases heq
      exact hscan
    · cases hposition
  · intro hscan
    rw [lower, hscan]

end Resolution

/-! ### Streams -/

/-- A scan accepts just the bytes that split into instructions of which every branch goes to the
start of one; it gives the one split there is, and where the branches go. It rejects other bytes at
the first position where no instruction can be read, or else at the first branch that goes
elsewhere. Lowering can rely on it: the operands of each instruction are there, every branch that is
emitted is resolved, and errors of the stream come from the scan alone. -/
theorem scan_decodes_streams (code : List UInt8) :
    (∀ instrs, (∃ stream, Stream.scan code = .ok stream ∧ stream.instrs = instrs) ↔
      Splits 0 code instrs ∧ ∀ l ∈ instrs, l.Lands instrs) ∧
    (∀ instrs instrs', Splits 0 code instrs → Splits 0 code instrs' → instrs = instrs') ∧
    (∀ cause, Stream.scan code = .error cause ↔ Rejected code cause) ∧
    (∀ stream, Stream.scan code = .ok stream →
      (∀ target : Nat, target ∈ stream.targets ↔
        ∃ l ∈ stream.instrs, l.destination? = some (target : Int)) ∧
      ∀ l ∈ stream.instrs, l.Inside code) ∧
    ∀ context owner method, method.bytecode = code →
      (∀ cause, lower context owner method = .error (.stream cause) ↔
        Stream.scan code = .error cause) ∧
      ∀ stream fin, Stream.scan code = .ok stream →
        Yields (stream.instrs.forM (lowerAt (.of context owner method stream))) {} () fin →
          ∃ body, fin.code.toList.mapM (resolve fin.positions) = .ok body := by
  refine ⟨fun instrs =>
    scan_eq_ok_iff, fun _ _ => Splits.unique, fun cause => scan_eq_error_iff, ?_, ?_⟩
  · intro stream hscan
    refine ⟨mem_targets_iff hscan, fun l hl => ?_⟩
    exact inside_of_fetch? ((scanned_of_scan hscan).fetch l hl)
  · rintro context owner method rfl
    exact ⟨fun cause => lower_eq_stream_iff, fun stream fin => exists_resolved⟩

/-- A wide jump to a jump that goes back to it. -/
def backAndForth : List Located :=
  [⟨0, ⟨0xc8, "goto_w", 5, fun o => .jump (i32 o).toInt⟩, [0x00, 0x00, 0x00, 0x05]⟩,
    ⟨5, ⟨0xa7, "goto", 3, fun o => .jump (i16 o).toInt⟩, [0xff, 0xfb]⟩]

theorem splits_backAndForth :
    Splits 0 [0xc8, 0x00, 0x00, 0x00, 0x05, 0xa7, 0xff, 0xfb] backAndForth := by
  have hwide : Opcode.ofByte? 0xc8 = some ⟨0xc8, "goto_w", 5, fun o => .jump (i32 o).toInt⟩ := rfl
  have hnarrow : Opcode.ofByte? 0xa7 = some ⟨0xa7, "goto", 3, fun o => .jump (i16 o).toInt⟩ := rfl
  have hback := @Splits.cons 5 _ _ [0xff, 0xfb] _ _ hnarrow rfl (.nil 8)
  exact @Splits.cons 0 _ _ [0x00, 0x00, 0x00, 0x05] _ _ hwide rfl hback

theorem lands_backAndForth : ∀ l ∈ backAndForth, l.Lands backAndForth := by
  have hstarts : ∀ l ∈ backAndForth, ∀ target ∈ l.destination?,
      ∃ l' ∈ backAndForth, (l'.pc : Int) = target := by
    decide
  exact hstarts

/-- The jumps of `backAndForth` go to each other, and with one byte less nothing can be read at the
second. -/
theorem scan_decodes_streams_jumps :
    (∃ stream, Stream.scan [0xc8, 0x00, 0x00, 0x00, 0x05, 0xa7, 0xff, 0xfb] = .ok stream ∧
      stream.instrs = backAndForth ∧ 0 ∈ stream.targets ∧ 5 ∈ stream.targets ∧ 1 ∉ stream.targets) ∧
    Stream.scan [0xc8, 0x00, 0x00, 0x00, 0x05, 0xa7, 0xff] = .error (.truncated 5) := by
  constructor
  · obtain ⟨haccepts, -, -, hgives, -⟩ :=
      scan_decodes_streams [0xc8, 0x00, 0x00, 0x00, 0x05, 0xa7, 0xff, 0xfb]
    obtain ⟨stream, hscan, hinstrs⟩ :=
      (haccepts backAndForth).mpr ⟨splits_backAndForth, lands_backAndForth⟩
    obtain ⟨htargets, -⟩ := hgives stream hscan
    refine ⟨stream, hscan, hinstrs, ?_⟩
    simp only [htargets, hinstrs]
    decide
  · obtain ⟨-, -, hrejects, -⟩ := scan_decodes_streams [0xc8, 0x00, 0x00, 0x00, 0x05, 0xa7, 0xff]
    have hwide : Opcode.ofByte? 0xc8 = some ⟨0xc8, "goto_w", 5, fun o => .jump (i32 o).toInt⟩ := rfl
    have hnarrow : Opcode.ofByte? 0xa7 = some ⟨0xa7, "goto", 3, fun o => .jump (i16 o).toInt⟩ := rfl
    have hbefore := @Splits.cons 0 _ _ [0x00, 0x00, 0x00, 0x05] _ _ hwide rfl (.nil 5)
    exact (hrejects _).mpr (.blocked rfl hbefore (.truncated hnarrow (by decide)))

end SlotJit.Lowering

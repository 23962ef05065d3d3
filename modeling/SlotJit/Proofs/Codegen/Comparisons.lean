import SlotJit.Proofs.Codegen.Landing
import SlotJit.Proofs.Lowering.Flags

/-!
# Compares and conditional jumps in machine code

The code of a compare ends with a machine compare, and a conditional jump is one machine
instruction. What is between the two in the code of a method is the code of moves, and that is
machine moves only, which leave the flags as they are.

`Spells` says that a part of a region has the bytes of some instructions, one after the other. It
holds of the code of moves one by one, and parts can be put together.

## Main results

* `conditional_jump_tests_compare`: the compare of a conditional jump, in the code of the slots and
  in machine code.
-/

namespace SlotJit.X64

/-- The instruction is a machine move: between registers, memory and constants, of all of a
value. -/
def Instr.isMov : Instr → Bool
  | mov .. | load .. | store .. | storeImm .. | movImm .. | movImm64 .. => true
  | _ => false

/-- The instruction is a machine compare. -/
def Instr.isCmp : Instr → Bool
  | alu .cmp .. | aluLoad .cmp .. | aluImm .cmp .. => true
  | _ => false

/-- The instruction jumps on a condition, if there is one. -/
def Instr.JumpsOn (cond : Option Cond) (i : Instr) : Prop :=
  (∃ distance, i = .jumpShort cond distance) ∨ ∃ distance, i = .jumpLong cond distance

/-- A jump that is written jumps on its condition. -/
theorem jumpsOn_jumpInstr (item : Item) (offsets : LabelOffsets) (cond : Option Cond)
    (label : Nat) : (item.jumpInstr offsets cond label).JumpsOn cond := by
  unfold Item.jumpInstr
  split
  · exact .inl ⟨_, rfl⟩
  · exact .inr ⟨_, rfl⟩

/-- Encoded instructions are read one by one. -/
theorem exists_decodesFrom (instrs : List Instr) (offset : Nat) :
    ∃ read, DecodesFrom offset (instrs.flatMap encode) read ∧ read.map Prod.fst = instrs := by
  induction instrs generalizing offset with
  | nil => exact ⟨[], .nil offset, rfl⟩
  | cons i instrs ih =>
      obtain ⟨read, hread, hinstrs⟩ := ih (offset + (encode i).length)
      refine ⟨_, hread.encode_append i, ?_⟩
      rw [List.map_cons, hinstrs]

end SlotJit.X64

namespace SlotJit.Codegen

open SlotJit.CodeMemory SlotJit.Ir SlotJit.Machine SlotJit.Tables SlotJit.X64
open SlotJit.Lowering (lower TestsCompare exists_lowered)
open SlotJit.Semantics (returnJump)

/-! ### Parts of a region -/

/-- From one offset to another a region has the bytes of some instructions. -/
structure Spells (region : Region) (start finish : Nat) (instrs : List Instr) : Prop where
  le : start ≤ finish
  inside : finish ≤ region.size
  bytes : region.window start (finish - start) = instrs.flatMap encode

section Spells

variable {region : Region} {start next finish : Nat} {instrs more : List Instr}

/-- A window in two parts. -/
theorem window_add {count : Nat} (h : start + count + next ≤ region.size) :
    region.window start (count + next) =
      region.window start count ++ region.window (start + count) next := by
  simp only [Region.window]
  rw [Nat.min_eq_left (by omega), Nat.min_eq_left (by omega), Nat.min_eq_left (by omega),
    List.range_add, List.map_append, List.map_map]
  simp [Function.comp_def, Nat.add_assoc]

/-- No bytes spell no instructions. -/
theorem Spells.nil (h : start ≤ region.size) : Spells region start start [] := by
  refine ⟨Nat.le_refl _, h, ?_⟩
  rw [Nat.sub_self, Region.window, Nat.zero_min]
  rfl

/-- Parts that meet are put together. -/
theorem Spells.append (h : Spells region start next instrs) (h' : Spells region next finish more) :
    Spells region start finish (instrs ++ more) := by
  have hle := h.le
  have hle' := h'.le
  have hinside := h'.inside
  refine ⟨Nat.le_trans hle hle', hinside, ?_⟩
  have hlength : finish - start = next - start + (finish - next) := by omega
  rw [hlength, window_add (by omega), Nat.add_sub_cancel' hle, h.bytes, h'.bytes,
    List.flatMap_append]

/-- The bytes are read as the instructions. -/
theorem Spells.decodes (h : Spells region start finish instrs) :
    ∃ read, DecodesFrom start (region.window start (finish - start)) read ∧
      read.map Prod.fst = instrs :=
  h.bytes ▸ exists_decodesFrom instrs start

end Spells

/-! ### Pieces as bytes -/

/-- In a region the pieces that are instructions have their bytes, and jumps are read as jumps on
their conditions. -/
structure Written (pieces : List Piece) (offset : Nat → Nat) (region : Region) : Prop where
  instr : ∀ k i, pieces[k]? = some (.instr i) → Spells region (offset k) (offset (k + 1)) [i]
  jump : ∀ k cond target, pieces[k]? = some (.jump cond target) →
    ∃ i, ReadsAt region (offset k) (offset (k + 1)) i ∧ i.JumpsOn cond

/-- Where the code of a compiled method is, and its bytes. -/
theorem exists_written {ctx : Context} {natives : Natives} {alloc alloc' : Allocator}
    {id : SymbolId} {method : Method} {compiled : CompiledMethod} {relocations : List Relocation}
    (h : compileMethod ctx natives alloc id method = (alloc', .ok (compiled, relocations))) :
    ∃ pieces start offset, InPlace ⟨ctx, natives, method.body.frameSlots⟩ method.body.code
      pieces start offset compiled.code ∧ Written pieces offset compiled.code := by
  obtain ⟨pieces, linked, settled, region, hpieces, hlinked, hbytes, hwrite, hplaced, -⟩ :=
    exists_of_compileMethod h
  obtain ⟨start, hblocks⟩ := exists_blocks_of_bodyPieces hpieces
  refine ⟨pieces, start, startOf settled, ⟨hpieces, hblocks, hplaced⟩, fun k i hk => ?_,
    fun k cond target hk => ?_⟩
  · obtain ⟨item, hsettled, hemission⟩ := exists_item_of_piece hlinked hk
    obtain ⟨hlen, hi⟩ := hlinked.bytes_write hsettled hemission
    obtain ⟨rest, hrest⟩ := exists_drop_bytes hlinked hsettled
    have hnext := startOf_succ hsettled
    refine ⟨by omega, hplaced.offset_le (Nat.succ_le_of_lt (List.getElem?_eq_some_iff.mp hk).1), ?_⟩
    rw [hi] at hrest hlen
    rw [hnext, Nat.add_sub_cancel_left, window_of_write hbytes hwrite, hrest, ← hlen,
      List.take_left]
    simp [Piece.emission]
  · obtain ⟨item, hsettled, hemission⟩ := exists_item_of_piece hlinked hk
    obtain ⟨hlen, hi⟩ := hlinked.bytes_write hsettled hemission
    obtain ⟨rest, hrest⟩ := exists_drop_bytes hlinked hsettled
    rw [hi] at hrest hlen
    refine ⟨_, ⟨instrAt?_of_drop (window_of_write hbytes hwrite _ _) hrest, ?_⟩,
      jumpsOn_jumpInstr ..⟩
    rw [startOf_succ hsettled, ← hlen]
    rfl

/-- Instructions in a row. -/
theorem Written.spells {pieces : List Piece} {offset : Nat → Nat} {region : Region}
    (h : Written pieces offset region) (hplaced : Placed pieces offset region) {instrs : List Instr}
    {k : Nat} (hk : k ≤ pieces.length) (hcode : instrs.map .instr <+: pieces.drop k) :
    Spells region (offset k) (offset (k + instrs.length)) instrs := by
  induction instrs generalizing k with
  | nil => exact .nil (hplaced.offset_le hk)
  | cons i instrs ih =>
      have hpiece : pieces[k + 0]? = some (.instr i) := getElem?_of_isPrefix_drop hcode rfl
      have hlt := (List.getElem?_eq_some_iff.mp hpiece).1
      have hrest : instrs.map .instr <+: pieces.drop (k + 1) := by
        obtain ⟨rest, hrest⟩ := hcode
        exact ⟨rest, by rw [← List.drop_drop, ← hrest]; rfl⟩
      have hspells := (h.instr k i hpiece).append (ih hlt hrest)
      rwa [Nat.add_right_comm] at hspells

/-! ### Templates -/

section Templates

variable {site : Site} {fresh : Nat} {inst : Inst} {code : List Piece}

/-- Copying is moves alone. -/
theorem moves_of_copyTo {ty : ValueType} {src : Operand} {disp : Int32}
    (h : copyTo inst ty src disp = .ok code) :
    ∃ instrs : List Instr, code = instrs.map .instr ∧ ∀ i ∈ instrs, i.isMov = true := by
  unfold copyTo at h
  simp only at h
  split at h
  · obtain ⟨srcDisp, -, h⟩ := bind_eq_ok.mp h
    cases h
    exact ⟨[_, _], rfl, by simp [Instr.isMov]⟩
  · obtain ⟨bits, -, h⟩ := bind_eq_ok.mp h
    split at h
    · cases h
      exact ⟨[_], rfl, by simp [Instr.isMov]⟩
    · cases h
      exact ⟨[_], rfl, by simp [Instr.isMov]⟩
    · cases h
      exact ⟨[_, _], rfl, by simp [Instr.isMov]⟩

/-- The code of a move is machine moves. -/
theorem moves_of_template (hmove : inst.kind.isMove = true)
    (h : template site fresh inst = .ok code) :
    ∃ instrs : List Instr, code = instrs.map .instr ∧ ∀ i ∈ instrs, i.isMov = true := by
  cases hkind : inst.kind with
  | move ty =>
      unfold template at h
      rw [hkind] at h
      obtain ⟨dst, -, h⟩ := bind_eq_ok.mp h
      obtain ⟨src, -, h⟩ := bind_eq_ok.mp h
      split at h
      · cases h
        exact ⟨[], rfl, by simp⟩
      · obtain ⟨disp, -, h⟩ := bind_eq_ok.mp h
        exact moves_of_copyTo h
  | _ =>
      rw [hkind] at hmove
      cases hmove

/-- The code of a compare ends with a machine compare. -/
theorem exists_cmp_of_template {ty : Comparand} (hkind : inst.kind = .compare ty)
    (h : template site fresh inst = .ok code) :
    ∃ front cmp, code = front ++ [.instr cmp] ∧ cmp.isCmp = true := by
  unfold template at h
  rw [hkind] at h
  obtain ⟨a, -, h⟩ := bind_eq_ok.mp h
  obtain ⟨b, -, h⟩ := bind_eq_ok.mp h
  obtain ⟨left, hleft, h⟩ := bind_eq_ok.mp h
  split at h
  · obtain ⟨disp, -, h⟩ := bind_eq_ok.mp h
    cases h
    exact ⟨left, _, rfl, rfl⟩
  · obtain ⟨bits, -, h⟩ := bind_eq_ok.mp h
    split at h
    · cases h
      exact ⟨left, _, rfl, rfl⟩
    · cases h
      exact ⟨left ++ [_], _, by rw [List.append_assoc]; rfl, rfl⟩

end Templates

/-! ### Between a compare and its jump -/

section Methods

variable {site : Site} {insts : List Inst} {pieces : List Piece} {start offset : Nat → Nat}
  {region : Region}

/-- The code of moves in a row is machine moves. -/
theorem exists_moves_between (hplace : InPlace site insts pieces start offset region)
    (hwritten : Written pieces offset region) {first count : Nat}
    (hlast : first + count ≤ insts.length)
    (hmoves : ∀ k inst, first ≤ k → k < first + count → insts[k]? = some inst →
      inst.kind.isMove = true) :
    ∃ instrs, Spells region (offset (start first)) (offset (start (first + count))) instrs ∧
      ∀ i ∈ instrs, i.isMov = true := by
  induction count with
  | zero => exact ⟨[], .nil (hplace.placed.offset_le (hplace.blocks.start_le hlast)), by simp⟩
  | succ count ih =>
      obtain ⟨instrs, hspells, hall⟩ :=
        ih (by omega) fun k inst hk hlt => hmoves k inst hk (by omega)
      have hlt : first + count < insts.length := by omega
      obtain ⟨fresh, code, k, htemplate, hcode, hstart, hfinish, -, hnext⟩ :=
        hplace.blocks.exists_code hplace.placed (List.getElem?_eq_getElem hlt)
      have hmove := hmoves _ _ (Nat.le_add_right _ _) (by omega) (List.getElem?_eq_getElem hlt)
      obtain ⟨more, rfl, hmore⟩ := moves_of_template hmove htemplate
      have hbound : start (first + count + 1) ≤ pieces.length := hplace.blocks.start_le hlt
      have hadded := hwritten.spells hplace.placed (by omega) hcode
      rw [List.length_map] at hfinish
      rw [hstart, hfinish] at hadded
      refine ⟨instrs ++ more, hspells.append hadded, fun i hi => ?_⟩
      rcases List.mem_append.mp hi with hi | hi
      · exact hall i hi
      · exact hmore i hi

/-- The code of a compare ends with a machine compare. -/
theorem exists_cmp_of_compare (hplace : InPlace site insts pieces start offset region) {i : Nat}
    {inst : Inst} {ty : Comparand} (hi : insts[i]? = some inst) (hkind : inst.kind = .compare ty) :
    ∃ place cmp, offset (start i) ≤ place ∧ ReadsAt region place (offset (start (i + 1))) cmp ∧
      cmp.isCmp = true := by
  obtain ⟨fresh, code, k, htemplate, hcode, hstart, hfinish, -, -⟩ :=
    hplace.blocks.exists_code hplace.placed hi
  obtain ⟨front, cmp, rfl, hcmp⟩ := exists_cmp_of_template hkind htemplate
  have hpiece : pieces[k + front.length]? = some (.instr cmp) :=
    getElem?_of_isPrefix_drop hcode (by simp)
  have hreads := hplace.placed.instr _ _ hpiece
  rw [← hfinish]
  refine ⟨offset (k + front.length), cmp, ?_, ?_, hcmp⟩
  · rw [← hstart]
    exact hplace.placed.offset_add (Nat.le_of_lt (List.getElem?_eq_some_iff.mp hpiece).1)
  · rwa [List.length_append, ← Nat.add_assoc]

/-- A conditional jump is one machine jump on its condition. -/
theorem exists_jcc_of_jumpIf (hplace : InPlace site insts pieces start offset region)
    (hwritten : Written pieces offset region) {j : Nat} {inst : Inst} {condition : Condition}
    (hj : insts[j]? = some inst) (hkind : inst.kind = .jumpIf condition) :
    ∃ jcc, ReadsAt region (offset (start j)) (offset (start (j + 1))) jcc ∧
      jcc.JumpsOn (some (condOf condition)) := by
  obtain ⟨fresh, code, k, htemplate, hcode, hstart, hfinish, -, -⟩ :=
    hplace.blocks.exists_code hplace.placed hj
  obtain ⟨label, rfl, -⟩ := code_of_isJump (by rw [hkind]; rfl) htemplate
  rw [hkind] at hcode
  have hpiece : pieces[k + 0]? = some (.jump (some (condOf condition)) label) :=
    getElem?_of_isPrefix_drop hcode rfl
  rw [← hstart, ← hfinish]
  exact hwritten.jump k _ _ hpiece

end Methods

/-- In the code of a method, the machine code of the compare at an index ends with a machine
compare, the conditional jump at another is one machine jump on its condition, and the bytes in
between are read as machine moves only. -/
def OnlyMovesBetween (site : Site) (insts : List Inst) (region : Region) (condition : Condition)
    (i j : Nat) : Prop :=
  ∃ pieces start offset, InPlace site insts pieces start offset region ∧
    ∃ place cmp jcc read, offset (start i) ≤ place ∧
      ReadsAt region place (offset (start (i + 1))) cmp ∧ cmp.isCmp = true ∧
      ReadsAt region (offset (start j)) (offset (start (j + 1))) jcc ∧
      jcc.JumpsOn (some (condOf condition)) ∧
      offset (start (i + 1)) ≤ offset (start j) ∧
      DecodesFrom (offset (start (i + 1)))
        (region.window (offset (start (i + 1))) (offset (start j) - offset (start (i + 1)))) read ∧
      ∀ r ∈ read, r.1.isMov = true

/-- Every conditional jump of a method that was lowered tests the flags of a compare before it, with
moves in between which no jump leads to. The compare is from the same branch of the bytecode, or
from the compare of two longs whose value that branch takes. In machine code there are machine moves
only between the two. -/
theorem conditional_jump_tests_compare {context : Context} {owner : ClassTable}
    {source method : Method} (hlower : lower context owner source = .ok method.body) {j : Nat}
    {inst : Inst} {condition : Condition}
    (hj : method.body.code[j]? = some inst)
    (hkind : inst.kind = .jumpIf condition) :
    ∃ i, TestsCompare context owner source method.body condition i j ∧
      ∀ ctx natives alloc id compiled relocations alloc',
        compileMethod ctx natives alloc id method = (alloc', .ok (compiled, relocations)) →
          OnlyMovesBetween ⟨ctx, natives, method.body.frameSlots⟩ method.body.code compiled.code
            condition i j := by
  obtain ⟨stream, fin, hlowered⟩ := exists_lowered hlower
  obtain ⟨i, htests⟩ := hlowered.exists_compare hj hkind
  refine ⟨i, htests, fun ctx natives alloc id compiled relocations alloc' hcompile => ?_⟩
  obtain ⟨pieces, start, offset, hplace, hwritten⟩ := exists_written hcompile
  obtain ⟨cmpInst, ty, hi, hcompare⟩ := htests.compare
  obtain ⟨place, cmp, hle, hcmp, hiscmp⟩ := exists_cmp_of_compare hplace hi hcompare
  obtain ⟨jcc, hjcc, hjumps⟩ := exists_jcc_of_jumpIf hplace hwritten hj hkind
  -- The instructions from the one after the compare up to the jump.
  have hlt := htests.lt
  have hlength := (List.getElem?_eq_some_iff.mp hj).1
  have hsum : i + 1 + (j - (i + 1)) = j := by omega
  obtain ⟨instrs, hspells, hmov⟩ := exists_moves_between hplace hwritten
    (by omega : i + 1 + (j - (i + 1)) ≤ method.body.code.length)
    fun k inst hk hkj => htests.moves k inst (by omega) (by omega)
  rw [hsum] at hspells
  obtain ⟨read, hread, hinstrs⟩ := hspells.decodes
  refine ⟨pieces, start, offset, hplace, place, cmp, jcc, read, hle, hcmp, hiscmp, hjcc, hjumps,
    hspells.le, hread, fun r hr => hmov r.1 ?_⟩
  rw [← hinstrs]
  exact List.mem_map_of_mem hr

/-- `exceeds` after it was lowered. -/
def exceedsMethod : Method := { Lowering.exceeds with body := Lowering.exceedsBody }

/-- The code of `exceeds`. -/
def exceedsPieces : List Piece :=
  [.instr (.lea .rax (frameMem 144)),
    .instr (.aluLoad .cmp .qword .rax { base := envReg, disp := 0 }),
    .jump (some .be) 6, .instr .trap, .label 6, .instr (.load .qword .rax (frameMem 0)),
    .instr (.aluLoad .cmp .qword .rax (frameMem 32)), .instr (.storeImm .dword (frameMem 64) 1),
    .jump (some .le) 4, .instr (.movImm .dword .rax 1), .instr returnJump, .label 4,
    .instr (.movImm .dword .rax 0), .instr returnJump]

/-- The code of `exceeds`. -/
theorem bodyPieces_exceeds :
    bodyPieces ⟨Lowering.countdownContext, fun _ => none, 9⟩ Lowering.exceedsBody.code =
      .ok exceedsPieces := by
  simp only [bodyPieces, instructionPieces, labelAt, contains_branchLabels, Lowering.exceedsBody]
  decide +kernel

/-- The jump of `exceeds` tests the compare of the two longs, with a store in between. -/
theorem conditional_jump_tests_compare_exceeds :
    lower Lowering.countdownContext Lowering.countdownOwner Lowering.exceeds =
      .ok exceedsMethod.body ∧
      TestsCompare Lowering.countdownContext Lowering.countdownOwner Lowering.exceeds
        exceedsMethod.body .le 0 2 ∧
      ∃ compiled relocations alloc',
        compileMethod Lowering.countdownContext (fun _ => none) { next := Allocator.codeBase }
          exceedsMethod.id exceedsMethod = (alloc', .ok (compiled, relocations)) ∧
        OnlyMovesBetween ⟨Lowering.countdownContext, fun _ => none, 9⟩ exceedsMethod.body.code
          compiled.code .le 0 2 := by
  let alloc : Allocator := { next := Allocator.codeBase }
  obtain ⟨compiled, relocations, alloc', hcompile, -, -⟩ :=
    @exists_compileMethod Lowering.countdownContext (fun _ => none) alloc exceedsMethod.id
      exceedsMethod _ rfl bodyPieces_exceeds (by decide) (by decide) rfl (by decide)
      (show Allocator.codeBase.toNat + 2 * mappableSize ≤ addressCount by decide)
  obtain ⟨i, htests, hmoves⟩ := @conditional_jump_tests_compare Lowering.countdownContext
    Lowering.countdownOwner Lowering.exceeds exceedsMethod Lowering.lower_exceeds 2 _ .le rfl rfl
  -- The instruction right before the jump is the store.
  obtain rfl : i = 0 := by
    obtain ⟨inst, ty, hinst, hkind⟩ := htests.compare
    have hlt := htests.lt
    by_contra hne
    obtain rfl : i = 1 := by omega
    cases hinst
    cases hkind
  exact ⟨Lowering.lower_exceeds, htests, compiled, relocations, alloc', hcompile,
    hmoves _ _ alloc _ compiled relocations alloc' hcompile⟩

end SlotJit.Codegen

import SlotJit.Proofs.Codegen.Correctness
import SlotJit.Proofs.Codegen.Relocations

/-!
# Where jumps land

A jump names the instruction it goes to by its index, and the label of the end by the number of
instructions. The labels of the stack check and of templates have the numbers after that. A jump
within the code lands on the code of the instruction it names, or at the end. A larger number is not
refused as such: it may be the number of such an inner label, and then the jump lands there.

## Main results

* `bound_le_of_bodyPieces`: the numbers that labels of a body have.
* `jumps_land`: where each jump of a compiled method lands.
-/

namespace SlotJit.Codegen

open SlotJit.CodeMemory SlotJit.Ir SlotJit.Machine SlotJit.Tables SlotJit.X64

variable {site : Site} {insts : List Inst} {pieces : List Piece} {start offset : Nat → Nat}
  {region : Region}

/-! ### Inner labels -/

/-- How many labels the templates of instructions use. -/
def labelsUsed (insts : List Inst) : Nat := (insts.map fun inst => labelCount inst.kind).sum

/-- The labels of instructions have their indices as numbers, those of templates the numbers they
were given. -/
theorem bound_le_of_instructionPieces {labels : Std.HashSet Nat} {index fresh : Nat}
    (h : instructionPieces site labels index fresh insts = .ok pieces) :
    ∀ l ∈ pieces.filterMap Piece.bound?, l ≤ index + insts.length ∨
      l < fresh + labelsUsed insts := by
  induction insts generalizing index fresh pieces with
  | nil =>
      cases h
      intro l hl
      rw [bound_labelAt] at hl
      split at hl
      · exact .inl (Nat.le_of_eq (List.mem_singleton.mp hl))
      · cases hl
  | cons inst rest ih =>
      obtain ⟨code, htemplate, h⟩ := bind_eq_ok.mp h
      obtain ⟨others, hothers, h⟩ := bind_eq_ok.mp h
      cases h
      have hsum : labelsUsed (inst :: rest) = labelCount inst.kind + labelsUsed rest := by
        rw [labelsUsed, List.map_cons, List.sum_cons]
        rfl
      intro l hl
      rw [List.filterMap_append, List.filterMap_append, bound_labelAt,
        bound_template htemplate] at hl
      rw [List.length_cons, hsum]
      rcases List.mem_append.mp hl with hl | hl
      · rcases List.mem_append.mp hl with hl | hl
        · split at hl
          · have heq := List.mem_singleton.mp hl
            omega
          · cases hl
        · have hrange := List.mem_range'_1.mp hl
          omega
      · have hlater := ih hothers l hl
        omega

/-- The number of a label of a body is the index of an instruction or of the end, that of the stack
check or one of as many as the templates use. -/
theorem bound_le_of_bodyPieces (h : bodyPieces site insts = .ok pieces) :
    ∀ l ∈ pieces.filterMap Piece.bound?, l ≤ insts.length + 1 + labelsUsed insts := by
  obtain ⟨check, hcheck, h⟩ := bind_eq_ok.mp h
  obtain ⟨body, hbody, h⟩ := bind_eq_ok.mp h
  cases h
  have hbound : check.filterMap Piece.bound? = [insts.length + 1] := by
    obtain ⟨disp, -, hcheck⟩ := bind_eq_ok.mp hcheck
    cases hcheck
    rfl
  intro l hl
  rw [List.filterMap_append, hbound] at hl
  rcases List.mem_append.mp hl with hl | hl
  · have heq := List.mem_singleton.mp hl
    omega
  · have hle := bound_le_of_instructionPieces hbody l hl
    omega

/-! ### Jumps -/

/-- The condition of the machine jump for a jump. -/
def jumpCond : Kind → Option Cond
  | .jumpIf condition => some (condOf condition)
  | _ => none

theorem code_of_isJump {fresh : Nat} {inst : Inst} {code : List Piece}
    (hjump : inst.kind.isJump = true) (h : template site fresh inst = .ok code) :
    ∃ label, code = [.jump (jumpCond inst.kind) label] ∧
      inst.args.head?.bind branchLabel? = some label := by
  unfold template at h
  cases hkind : inst.kind with
  | jump | jumpIf =>
      rw [hkind] at h
      exact code_of_jumpTemplate h
  | _ =>
      rw [hkind] at hjump
      cases hjump

/-- A jump of a method in place is read as a machine jump on its condition. Where it leads, the
label of the number that the jump names is bound. -/
theorem exists_jump_of_isJump (h : InPlace site insts pieces start offset region) {k : Nat}
    {inst : Inst} (hk : insts[k]? = some inst) (hjump : inst.kind.isJump = true) :
    ∃ target q, inst.args.head?.bind branchLabel? = some target ∧
      pieces[q]? = some (.label target) ∧ (target ≤ insts.length → q = start target) ∧
      ∃ i, ReadsAt region (offset (start k)) (offset (start (k + 1))) i ∧
        (X64.Near (offset (start (k + 1))) (offset q) →
          JumpsTo (jumpCond inst.kind) (offset (start (k + 1))) (offset q) i) := by
  obtain ⟨fresh, code, p, htemplate, hcode, hstart, hfinish, -, -⟩ :=
    h.blocks.exists_code h.placed hk
  obtain ⟨target, rfl, htarget⟩ := code_of_isJump hjump htemplate
  have hpiece : pieces[p + 0]? = some (.jump (jumpCond inst.kind) target) :=
    getElem?_of_isPrefix_drop hcode rfl
  have hcontains : (branchLabels insts).contains target = true := by
    rw [contains_branchLabels, List.contains_iff_mem, List.mem_filterMap]
    exact ⟨inst, List.mem_of_getElem? hk, by rw [if_pos hjump, htarget]⟩
  obtain ⟨q, hq, hlands⟩ : ∃ q, pieces[q]? = some (.label target) ∧
      (target ≤ insts.length → q = start target) := by
    by_cases hinside : target ≤ insts.length
    · exact ⟨start target, h.blocks.label hinside hcontains, fun _ => rfl⟩
    · -- Past the end the number has some label all the same, or linking would have failed.
      obtain ⟨q, hq⟩ := h.placed.bound _ _ _ hpiece
      exact ⟨q, hq, fun hle => absurd hle hinside⟩
  obtain ⟨i, hreads, hjumps⟩ := h.placed.jump _ _ _ q hpiece hq
  rw [List.length_singleton] at hfinish
  simp only [Nat.add_zero, hstart, hfinish] at hreads hjumps
  exact ⟨target, q, htarget, hq, hlands, i, hreads, hjumps⟩

/-- Every jump of a compiled method lands where it says: on the code of the instruction whose index
it names, or at the end of the code. One that names a number past the end was accepted because the
number is that of a label of the stack check or of a template, and lands there; there is no label
past those. -/
theorem jumps_land {ctx : Context} {natives : Natives} {alloc alloc' : Allocator}
    {id : SymbolId} {method : Method} {compiled : CompiledMethod} {relocations : List Relocation}
    (h : compileMethod ctx natives alloc id method = (alloc', .ok (compiled, relocations))) :
    ∃ pieces start offset, InPlace ⟨ctx, natives, method.body.frameSlots⟩ method.body.code
        pieces start
        offset compiled.code ∧ offset (start method.body.code.length) = compiled.code.size ∧
      ∀ k inst, method.body.code[k]? = some inst → inst.kind.isJump = true →
        ∃ target destination i, inst.args.head?.bind branchLabel? = some target ∧
          ReadsAt compiled.code (offset (start k)) (offset (start (k + 1))) i ∧
          (X64.Near (offset (start (k + 1))) destination →
            JumpsTo (jumpCond inst.kind) (offset (start (k + 1))) destination i) ∧
          (target ≤ method.body.code.length ∧ destination = offset (start target) ∨
            method.body.code.length < target ∧
              target ≤ method.body.code.length + 1 + labelsUsed method.body.code ∧
              ∃ q, pieces[q]? = some (.label target) ∧ destination = offset q) := by
  obtain ⟨pieces, offset, -, hpieces, hplaced, -⟩ := placed_of_compileMethod h
  obtain ⟨start, hblocks⟩ := exists_blocks_of_bodyPieces hpieces
  have hplace : InPlace ⟨ctx, natives, method.body.frameSlots⟩ method.body.code pieces start offset
      compiled.code := ⟨hpieces, hblocks, hplaced⟩
  refine ⟨pieces, start, offset, hplace, hblocks.offset_last hplaced, fun k inst hk hjump => ?_⟩
  obtain ⟨target, q, htarget, hq, hlands, i, hreads, hjumps⟩ :=
    exists_jump_of_isJump hplace hk hjump
  refine ⟨target, offset q, i, htarget, hreads, hjumps, ?_⟩
  by_cases hinside : target ≤ method.body.code.length
  · exact .inl ⟨hinside, by rw [hlands hinside]⟩
  · refine .inr ⟨Nat.lt_of_not_le hinside, bound_le_of_bodyPieces hpieces target ?_, q, hq, rfl⟩
    exact List.mem_filterMap.mpr ⟨_, List.mem_of_getElem? hq, rfl⟩

/-- A method of two instructions, whose jump names a third one past the end. -/
def strayMethod : Method :=
  { Lowering.countdown with
    body :=
      { code := [{ kind := .jumpIf .eq, args := [.branch 3, .flags] }, { kind := .ret none }]
        frameSlots := 4 } }

theorem bodyPieces_stray :
    bodyPieces ⟨Lowering.countdownContext, fun _ => none, 4⟩ strayMethod.body.code =
    .ok [.instr (.lea .rax (frameMem 64)),
      .instr (.aluLoad .cmp .qword .rax { base := envReg, disp := limitOffset }),
      .jump (some .be) 3, .instr .trap, .label 3, .jump (some .e) 3,
      .instr (.jmpMem (frameMem (-slotSize)))] := by
  simp only [bodyPieces, instructionPieces, labelAt, contains_branchLabels, strayMethod]
  rfl

/-- The method is compiled, and its jump lands behind the stack check. -/
theorem jumps_land_stray :
    ∃ compiled relocations alloc',
      compileMethod Lowering.countdownContext (fun _ => none) { next := Allocator.codeBase }
        strayMethod.id strayMethod = (alloc', .ok (compiled, relocations)) ∧
      ∃ pieces start offset q i,
          InPlace ⟨Lowering.countdownContext, fun _ => none, 4⟩ strayMethod.body.code
          pieces start offset compiled.code ∧
        pieces[q]? = some (.label 3) ∧
          ReadsAt compiled.code (offset (start 0)) (offset (start 1)) i ∧
        JumpsTo (some .e) (offset (start 1)) (offset q) i := by
  let alloc : Allocator := { next := Allocator.codeBase }
  obtain ⟨compiled, relocations, alloc', hcompile, -, hsize⟩ :=
    @exists_compileMethod Lowering.countdownContext (fun _ => none) alloc strayMethod.id
      strayMethod _ rfl bodyPieces_stray (by decide) (by decide) rfl (by decide)
      (show Allocator.codeBase.toNat + 2 * mappableSize ≤ addressCount by decide)
  have hsmall : compiled.code.size ≤ 105 := hsize
  obtain ⟨pieces, start, offset, hplace, -, hjumps⟩ := jumps_land hcompile
  obtain ⟨target, destination, i, htarget, hreads, hjump, hlands⟩ := hjumps 0 _ rfl rfl
  obtain rfl : 3 = target := Option.some.inj htarget
  rcases hlands with ⟨hinside, -⟩ | ⟨-, -, q, hq, rfl⟩
  · exact absurd hinside (by decide)
  · refine ⟨compiled, relocations, alloc', hcompile, pieces, start, offset, q, i, hplace,
      hq, hreads, hjump (hplace.placed.near (by omega) (hplace.blocks.start_le (by decide)) ?_)⟩
    exact Nat.le_of_lt (List.getElem?_eq_some_iff.mp hq).1

end SlotJit.Codegen

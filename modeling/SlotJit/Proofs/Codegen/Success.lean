import SlotJit.Proofs.Codegen.Placement

/-!
# Code that can be compiled

The labels of a method's code are the numbers of its instructions, one for the stack check, and
after these the labels that templates are given. So no label is bound twice, and a jump finds its
label unless it is the jump of an instruction to a place outside of the method. Code with such
labels links, and is compiled if there is memory for it.

## Main results

* `labels_of_bodyPieces`: the labels of a method's code.
* `compileMethod_cases`: compiling code with such labels fails for want of memory alone.
-/

namespace SlotJit.Codegen

open SlotJit.CodeMemory SlotJit.Ir SlotJit.Tables SlotJit.X64

/-! ### Labels -/

section

variable {site : Site} {fresh index : Nat} {inst : Inst} {insts : List Inst}
  {code pieces : List Piece} {labels : Std.HashSet Nat}

/-- A template binds the labels that it was given. -/
theorem bound_template (h : template site fresh inst = .ok code) :
    code.filterMap Piece.bound? = List.range' fresh (labelCount inst.kind) := by
  cases template_shape h with
  | jump hjump =>
      cases hkind : inst.kind with
      | jump | jumpIf => rfl
      | _ =>
          rw [hkind] at hjump
          cases hjump
  | call hcall _ hcode =>
      rw [hcode.bound, hcall]
      rfl
  | enclosed _ _ hcode => exact hcode.bound

/-- A template jumps to labels that it was given, or to the target of its instruction. -/
theorem named_template (h : template site fresh inst = .ok code) {l : Nat}
    (hl : l ∈ code.filterMap Piece.named?) :
    l ∈ code.filterMap Piece.bound? ∨
      inst.kind.isJump = true ∧ inst.args.head?.bind branchLabel? = some l := by
  cases template_shape h with
  | @jump _ label hjump hlabel =>
      obtain rfl : l = label := List.mem_singleton.mp hl
      exact .inr ⟨hjump, hlabel⟩
  | call _ _ hcode =>
      rw [hcode.named] at hl
      cases hl
  | enclosed _ _ hcode =>
      refine .inl ?_
      rw [hcode.bound, List.mem_range'_1]
      exact hcode.named l hl

/-- The labels of the instructions from an index on, where the labels for templates come after those
of all instructions. -/
structure Labelled (labels : Std.HashSet Nat) (index fresh : Nat) (insts : List Inst)
    (pieces : List Piece) : Prop where
  nodup : (pieces.filterMap Piece.bound?).Nodup
  range : ∀ l ∈ pieces.filterMap Piece.bound?, index ≤ l ∧ l ≤ index + insts.length ∨ fresh ≤ l
  bound : ∀ l, index ≤ l → l ≤ index + insts.length → labels.contains l = true →
    l ∈ pieces.filterMap Piece.bound?
  named : ∀ l ∈ pieces.filterMap Piece.named?, l ∈ pieces.filterMap Piece.bound? ∨
    ∃ inst ∈ insts, inst.kind.isJump = true ∧ inst.args.head?.bind branchLabel? = some l

/-- The label before an instruction, if something jumps there. -/
theorem bound_labelAt (labels : Std.HashSet Nat) (index : Nat) :
    (labelAt labels index).filterMap Piece.bound? = if labels.contains index then
      [index] else [] := by
  unfold labelAt
  split <;> rfl

/-- Such a label jumps nowhere. -/
theorem named_labelAt (labels : Std.HashSet Nat) (index : Nat) :
    (labelAt labels index).filterMap Piece.named? = [] := by
  unfold labelAt
  split <;> rfl

/-- The labels of instructions are bound once each. -/
theorem labelled_of_instructionPieces
    (h : instructionPieces site labels index fresh insts = .ok pieces)
    (hfresh : index + insts.length < fresh) : Labelled labels index fresh insts pieces := by
  induction insts generalizing index fresh pieces with
  | nil =>
      cases h
      have hrange : ∀ l ∈ (labelAt labels index).filterMap Piece.bound?, l = index := by
        intro l hl
        rw [bound_labelAt] at hl
        split at hl
        · exact List.mem_singleton.mp hl
        · cases hl
      refine ⟨?_, fun l hl => .inl ?_, fun l hlow hhigh hcontains => ?_, ?_⟩
      · rw [bound_labelAt]
        split <;> simp
      · rw [hrange l hl]
        exact ⟨Nat.le_refl _, Nat.le_refl _⟩
      · obtain rfl : l = index := Nat.le_antisymm hhigh hlow
        rw [bound_labelAt, if_pos hcontains]
        exact List.mem_singleton_self l
      · rw [named_labelAt]
        exact nofun
  | cons inst rest ih =>
      obtain ⟨code, htemplate, h⟩ := bind_eq_ok.mp h
      obtain ⟨others, hothers, h⟩ := bind_eq_ok.mp h
      cases h
      rw [List.length_cons] at hfresh
      have hrest := ih hothers (by omega)
      have hcode := bound_template htemplate
      have hbound : (labelAt labels index ++ code ++ others).filterMap Piece.bound? =
          (if labels.contains index then [index] else []) ++
            (List.range' fresh (labelCount inst.kind) ++ others.filterMap Piece.bound?) := by
        rw [List.filterMap_append, List.filterMap_append, bound_labelAt, hcode, List.append_assoc]
      have hothersRange : ∀ l ∈ others.filterMap Piece.bound?,
          index + 1 ≤ l ∧ l ≤ index + (rest.length + 1) ∨ fresh + labelCount inst.kind ≤ l := by
        intro l hl
        have := hrest.range l hl
        omega
      refine ⟨?_, fun l hl => ?_, fun l hlow hhigh hcontains => ?_, fun l hl => ?_⟩
      · rw [hbound]
        refine List.nodup_append.mpr ⟨by split <;> simp, List.nodup_append.mpr
          ⟨List.nodup_range', hrest.nodup, fun l hl l' hl' => ?_⟩, fun l hl l' hl' => ?_⟩
        · have := List.mem_range'_1.mp hl
          have := hothersRange l' hl'
          omega
        · obtain rfl : l = index := by
            split at hl
            · exact List.mem_singleton.mp hl
            · cases hl
          rcases List.mem_append.mp hl' with hl' | hl'
          · have := List.mem_range'_1.mp hl'
            omega
          · have := hothersRange l' hl'
            omega
      · rw [hbound] at hl
        rw [List.length_cons]
        rcases List.mem_append.mp hl with hl | hl
        · obtain rfl : l = index := by
            split at hl
            · exact List.mem_singleton.mp hl
            · cases hl
          omega
        · rcases List.mem_append.mp hl with hl | hl
          · have := List.mem_range'_1.mp hl
            omega
          · have := hothersRange l hl
            omega
      · rw [hbound]
        rw [List.length_cons] at hhigh
        by_cases hfirst : l = index
        · subst hfirst
          rw [if_pos hcontains]
          exact List.mem_append_left _ (List.mem_singleton_self l)
        · exact List.mem_append_right _ (List.mem_append_right _
            (hrest.bound l (by omega) (by omega) hcontains))
      · rw [List.filterMap_append, List.filterMap_append, named_labelAt, List.nil_append] at hl
        rw [hbound]
        rcases List.mem_append.mp hl with hl | hl
        · rcases named_template htemplate hl with hown | htarget
          · exact .inl (List.mem_append_right _ (List.mem_append_left _ (hcode ▸ hown)))
          · exact .inr ⟨inst, List.mem_cons_self, htarget⟩
        · rcases hrest.named l hl with hown | ⟨inst', hmem, htarget⟩
          · exact .inl (List.mem_append_right _ (List.mem_append_right _ hown))
          · exact .inr ⟨inst', List.mem_cons_of_mem _ hmem, htarget⟩

/-- The labels that instructions jump to. -/
theorem contains_branchLabels (insts : List Inst) (l : Nat) :
    (branchLabels insts).contains l = (insts.filterMap fun inst =>
      if inst.kind.isJump then inst.args.head?.bind branchLabel? else none).contains l :=
  Std.HashSet.contains_ofList

/-- All branches of a body stay within it, up to its end. -/
def BranchesInside (insts : List Inst) : Prop :=
  ∀ inst ∈ insts, inst.kind.isJump = true → ∀ l, inst.args.head?.bind branchLabel? = some l →
    l ≤ insts.length

/-- The code of a body binds no label twice, and all labels that it names. -/
theorem labels_of_bodyPieces (h : bodyPieces site insts = .ok pieces)
    (hbranches : BranchesInside insts) : (pieces.filterMap Piece.bound?).Nodup ∧
      ∀ l ∈ pieces.filterMap Piece.named?, l ∈ pieces.filterMap Piece.bound? := by
  obtain ⟨check, hcheck, h⟩ := bind_eq_ok.mp h
  obtain ⟨body, hbody, h⟩ := bind_eq_ok.mp h
  cases h
  have hlabelled := labelled_of_instructionPieces hbody (by omega)
  obtain ⟨hbound, hnamed⟩ : check.filterMap Piece.bound? = [insts.length + 1] ∧
      check.filterMap Piece.named? = [insts.length + 1] := by
    obtain ⟨disp, -, hcheck⟩ := bind_eq_ok.mp hcheck
    cases hcheck
    exact ⟨rfl, rfl⟩
  rw [List.filterMap_append, List.filterMap_append, hbound, hnamed]
  refine ⟨List.nodup_cons.mpr ⟨fun hmem => ?_, hlabelled.nodup⟩, fun l hl => ?_⟩
  · have := hlabelled.range _ hmem
    omega
  · rcases List.mem_cons.mp hl with rfl | hl
    · exact List.mem_cons_self
    · refine List.mem_cons_of_mem _ ?_
      rcases hlabelled.named l hl with hown | ⟨inst, hmem, hjump, htarget⟩
      · exact hown
      · refine hlabelled.bound l (Nat.zero_le l) ?_ ?_
        · rw [Nat.zero_add]
          exact hbranches inst hmem hjump l htarget
        · rw [contains_branchLabels, List.contains_iff_mem, List.mem_filterMap]
          exact ⟨inst, hmem, by rw [if_pos hjump, htarget]⟩

end

/-! ### Compiling -/

/-- The labels that are emitted. -/
theorem bound_emissions (pieces : List Piece) :
    (pieces.map Piece.emission).filterMap Emission.bound? = pieces.filterMap Piece.bound? := by
  rw [List.filterMap_map]
  exact congrArg (fun f => pieces.filterMap f) (funext fun p => by cases p <;> rfl)

/-- The jumps that are emitted. -/
theorem named_emissions (pieces : List Piece) :
    (pieces.map Piece.emission).filterMap Emission.named? = pieces.filterMap Piece.named? := by
  rw [List.filterMap_map]
  exact congrArg (fun f => pieces.filterMap f) (funext fun p => by cases p <;> rfl)

/-- Pieces whose labels are bound once, every label that a jump names among them, are linked. -/
theorem assembleMethod_of_bound {ctx : Context} {natives : Natives} {method : Method}
    {pieces : List Piece} (hcode : method.body.code.isEmpty = false)
    (hpieces : bodyPieces ⟨ctx, natives, method.body.frameSlots⟩ method.body.code = .ok pieces)
    (hnodup : ((pieces.map Piece.emission).filterMap Emission.bound?).Nodup)
    (hbound : ∀ target ∈ (pieces.map Piece.emission).filterMap Emission.named?,
      target ∈ (pieces.map Piece.emission).filterMap Emission.bound?) :
    ∃ linked settled, assembleMethod ctx natives method = .ok (pieces, linked, linked.codeSize) ∧
      Linked (pieces.map Piece.emission) settled linked := by
  obtain ⟨hok, settled, hlinked⟩ := link_of_bound hnodup hbound
  refine ⟨_, settled, assembleMethod_eq_ok_iff.mpr ⟨hcode, hpieces, ?_⟩, hlinked⟩
  rw [assembly_eq_ofEmissions]
  exact Prod.ext rfl hok

/-- Code whose jumps lead inside fails to be compiled for want of memory alone. -/
theorem compileMethod_cases {ctx : Context} {natives : Natives} {alloc : Allocator}
    {id : SymbolId} {method : Method} {pieces : List Piece}
    (hcode : method.body.code.isEmpty = false)
    (hpieces : bodyPieces ⟨ctx, natives, method.body.frameSlots⟩ method.body.code = .ok pieces)
    (hbranches : BranchesInside method.body.code) :
    (∃ cause, (compileMethod ctx natives alloc id method).2 = .error (.memory cause)) ∨
      ∃ result, (compileMethod ctx natives alloc id method).2 = .ok result := by
  obtain ⟨hnodup, hbound⟩ := labels_of_bodyPieces hpieces hbranches
  rw [← bound_emissions] at hnodup hbound
  rw [← named_emissions] at hbound
  obtain ⟨linked, -, hassembled, -⟩ := assembleMethod_of_bound hcode hpieces hnodup hbound
  simp only [compileMethod, hassembled]
  split
  · exact .inl ⟨_, rfl⟩
  · split
    · exact .inl ⟨_, rfl⟩
    · exact .inr ⟨_, rfl⟩

/-- Linked code takes no more room than as many of the longest instructions. -/
theorem codeSize_le_of_linked {emissions : List Emission} {settled : List Item} {a : Assembly}
    (hlinked : Linked emissions settled a) : a.codeSize ≤ maxInstrLength * emissions.length := by
  have hsize : ∀ item ∈ settled, item.size ≤ maxInstrLength := by
    intro item hmem
    obtain ⟨k, hitem⟩ := List.getElem?_of_mem hmem
    obtain ⟨e, he⟩ := hlinked.exists_emission hitem
    obtain ⟨hlength, hbytes⟩ := hlinked.bytes_write hitem he
    rw [← hlength, hbytes]
    cases e with
    | instr i => exact length_encode_le i
    | raw data fits => exact fits
    | label id => exact Nat.zero_le _
    | jump cond target => exact length_encode_le _
  have hlength : emissions.length = settled.length := by
    rw [← hlinked.grown.length_eq, List.length_map]
  rw [hlinked.codeSize_eq, hlength]
  clear hlinked hlength
  induction settled with
  | nil => exact Nat.zero_le _
  | cons item rest ih =>
      have hfirst := hsize item List.mem_cons_self
      have hrest := ih fun item hitem => hsize item (List.mem_cons_of_mem _ hitem)
      rw [List.map_cons, List.sum_cons, List.length_cons, Nat.mul_succ]
      omega

/-- The code of a body starts with an instruction. -/
theorem exists_instr_of_bodyPieces {site : Site} {code : List Inst} {pieces : List Piece}
    (h : bodyPieces site code = .ok pieces) : ∃ i rest, pieces = .instr i :: rest := by
  obtain ⟨check, hcheck, h⟩ := bind_eq_ok.mp h
  obtain ⟨rest, -, h⟩ := bind_eq_ok.mp h
  obtain ⟨disp, -, hcheck⟩ := bind_eq_ok.mp hcheck
  cases hcheck
  cases h
  exact ⟨_, _, rfl⟩

/-- Pieces whose labels are bound once, every label that a jump names among them, can be compiled as
long as there is memory for them. -/
theorem exists_compileMethod {ctx : Context} {natives : Natives} {alloc : Allocator}
    {id : SymbolId} {method : Method} {pieces : List Piece}
    (hcode : method.body.code.isEmpty = false)
    (hpieces : bodyPieces ⟨ctx, natives, method.body.frameSlots⟩ method.body.code = .ok pieces)
    (hnodup : ((pieces.map Piece.emission).filterMap Emission.bound?).Nodup)
    (hbound : ∀ target ∈ (pieces.map Piece.emission).filterMap Emission.named?,
      target ∈ (pieces.map Piece.emission).filterMap Emission.bound?)
    (hlimit : alloc.limit = none) (hfew : maxInstrLength * pieces.length < mappableSize)
    (hroom : alloc.next.toNat + 2 * mappableSize ≤ addressCount) :
    ∃ compiled relocations alloc',
      compileMethod ctx natives alloc id method = (alloc', .ok (compiled, relocations)) ∧
        compiled.code.base = alloc.next ∧ compiled.code.size ≤ maxInstrLength * pieces.length := by
  obtain ⟨linked, settled, hassembled, hlinked⟩ :=
    assembleMethod_of_bound hcode hpieces hnodup hbound
  have hsize : linked.codeSize ≤ maxInstrLength * pieces.length :=
    List.length_map Piece.emission ▸ codeSize_le_of_linked hlinked
  have hbytes : linked.bytes.length = linked.codeSize := Assembly.length_bytes hlinked.length_bytes
  have hpos : 0 < linked.codeSize := by
    obtain ⟨i, rest, rfl⟩ := exists_instr_of_bodyPieces hpieces
    obtain ⟨item, settled, -, -, rfl⟩ := List.forall₂_cons_left_iff.mp hlinked.grown
    have hfirst : (item :: settled)[0]? = some item := rfl
    obtain ⟨hlength, hencode⟩ := hlinked.bytes_write hfirst rfl
    have hi : 0 < item.size := by
      rw [← hlength, hencode]
      exact length_encode_pos i
    rw [hlinked.codeSize_eq, List.map_cons, List.sum_cons]
    omega
  have hcreate : Region.create alloc.next linked.codeSize =
      .ok { base := alloc.next, size := linked.codeSize } :=
    Region.create_eq_ok_iff.mpr ⟨hpos, Nat.lt_of_le_of_lt hsize hfew, rfl⟩
  have hinside : ¬ addressCount ≤ alloc.next.toNat + pageAligned linked.codeSize := by
    unfold pageAligned pageSize
    unfold mappableSize at hfew hroom
    omega
  simp only [compileMethod, hassembled, Allocator.allocate, hlimit, Allocator.allocate.grant,
    hcreate, hinside, Region.write, Bool.false_eq_true, if_false, hbytes, Nat.zero_add,
    Nat.le_refl, if_true]
  exact ⟨_, _, _, rfl, rfl, hsize⟩

/-- Without a limit, compiling a method takes less memory than can be mapped at once. -/
theorem room_of_compileMethod {ctx : Context} {natives : Natives} {alloc alloc' : Allocator}
    {id : SymbolId} {method : Method} {compiled : CompiledMethod} {relocations : List Relocation}
    (h : compileMethod ctx natives alloc id method = (alloc', .ok (compiled, relocations)))
    (hlimit : alloc.limit = none) :
    alloc'.limit = none ∧ alloc'.next.toNat ≤ alloc.next.toNat + mappableSize := by
  obtain ⟨pieces, linked, region, -, -, hallocates, -⟩ := link_of_compileMethod h
  have hmappable := hallocates.mappable
  refine ⟨hallocates.limit.trans hlimit, ?_⟩
  rw [hallocates.next]
  unfold mappableSize at hmappable ⊢
  unfold pageAligned pageSize
  omega

end SlotJit.Codegen

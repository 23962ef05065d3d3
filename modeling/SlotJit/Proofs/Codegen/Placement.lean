import SlotJit.Machine.CodeMap
import SlotJit.Proofs.Codegen.Batches
import SlotJit.Proofs.Codegen.Shapes
import SlotJit.Proofs.Codegen.Templates
import SlotJit.Proofs.X64.LinkedCode

/-!
# Code in place

A method's pieces are linked and written to a region of their own. In that region every piece has an
offset (`Placed`): at the offset of an instruction the processor reads that instruction, at the
offset of a jump it reads a jump that leads to the offset of the label, and a label takes no room.
-/

namespace SlotJit.Codegen

open SlotJit.CodeMemory SlotJit.Ir SlotJit.Machine SlotJit.Tables SlotJit.X64

variable {pieces : List Piece} {region : Region} {k : Nat} {alloc alloc' : Allocator}
  {relocations : List Relocation} {compiled : CompiledMethod} {labels : Std.HashSet Nat}
  {natives : Natives}

/-! ### Pieces as emissions -/

/-- What is emitted for a piece. -/
def Piece.emission : Piece → Emission
  | instr i => .instr i
  | jump cond target => .jump cond target
  | label id => .label id
  | loadCode callee => .instr (loadCodeInstr callee)

theorem Piece.item_emission (p : Piece) : p.emission.item = p.item := by
  cases p <;> rfl

/-- The assembly of pieces. -/
theorem assembly_eq_ofEmissions (pieces : List Piece) :
    Assembly.mk (pieces.map Piece.item).toArray = .ofEmissions (pieces.map Piece.emission) := by
  have hitems := items_ofEmissions (pieces.map Piece.emission)
  have hmap : Emission.item ∘ Piece.emission = Piece.item := funext Piece.item_emission
  rw [List.map_map, hmap] at hitems
  cases ha : Assembly.ofEmissions (pieces.map Piece.emission) with
  | mk items =>
      rw [ha] at hitems
      rw [← hitems, Array.toArray_toList]

/-! ### Reading a region -/

/-- A region that was filled by one write has the bytes written. -/
theorem window_of_write {code : Region} {bytes : List UInt8} (hsize : region.size = bytes.length)
    (h : region.write 0 bytes = (code, none)) (offset count : Nat) :
    code.window offset count = (bytes.drop offset).take count := by
  have hcode : code.size = bytes.length := (Region.frame_of_write h).2.1.trans hsize
  refine List.ext_getElem? fun i => ?_
  rw [Region.window, hcode, List.getElem?_map, List.getElem?_take, List.getElem?_drop]
  by_cases hi : i < min count (bytes.length - offset)
  · have hlt : offset + i < bytes.length := by omega
    rw [List.getElem?_range hi, if_pos (by omega), Option.map_some, Region.byte_write h,
      if_pos (by omega), Nat.sub_zero, List.getElem?_eq_getElem hlt, Option.getD_some]
  · have hrange : (List.range (min count (bytes.length - offset))).length ≤ i := by
      rw [List.length_range]
      exact Nat.le_of_not_lt hi
    rw [List.getElem?_eq_none hrange, Option.map_none]
    split
    · exact (List.getElem?_eq_none (by omega)).symm
    · rfl

/-- Where a region has the bytes of an instruction, the instruction is read. -/
theorem instrAt?_of_drop {bytes rest : List UInt8} {offset : Nat} {i : Instr}
    (hwindow : region.window offset longestInstr = (bytes.drop offset).take longestInstr)
    (h : bytes.drop offset = encode i ++ rest) :
    instrAt? region offset = some (i, BitVec.ofNat 64 (encode i).length) := by
  have hlength : (encode i).length ≤ longestInstr := length_encode_le i
  have hbytes : region.window offset longestInstr =
      encode i ++ rest.take (longestInstr - (encode i).length) := by
    rw [hwindow, h, List.take_append, List.take_of_length_le hlength]
  unfold instrAt?
  simp only [hbytes, decode_encode, List.length_append, Nat.add_sub_cancel]

/-! ### Pieces in place -/

/-- At an offset of a region the processor reads an instruction, which ends at another offset. -/
def ReadsAt (region : Region) (start finish : Nat) (i : Instr) : Prop :=
  instrAt? region start = some (i, BitVec.ofNat 64 (encode i).length) ∧
    finish = start + (encode i).length

/-- Pieces are in place in a region, each at its offset. -/
structure Placed (pieces : List Piece) (offset : Nat → Nat) (region : Region) : Prop where
  first : offset 0 = 0
  last : offset pieces.length = region.size
  mappable : region.size < mappableSize
  next : ∀ k < pieces.length, offset k ≤ offset (k + 1)
  label : ∀ k id, pieces[k]? = some (.label id) → offset (k + 1) = offset k
  instr : ∀ k i, pieces[k]? = some (.instr i) → ReadsAt region (offset k) (offset (k + 1)) i
  jump : ∀ k cond target j, pieces[k]? = some (.jump cond target) →
    pieces[j]? = some (.label target) → ∃ i, ReadsAt region (offset k) (offset (k + 1)) i ∧
      (Near (offset (k + 1)) (offset j) → JumpsTo cond (offset (k + 1)) (offset j) i)
  bound : ∀ (k : Nat) cond target, pieces[k]? = some (.jump cond target) →
    ∃ j : Nat, pieces[j]? = some (.label target)

namespace Placed

variable {pieces : List Piece} {offset : Nat → Nat} {region : Region}

/-- Offsets grow. -/
theorem offset_add (h : Placed pieces offset region) {n : Nat} (hk : k + n ≤ pieces.length) :
    offset k ≤ offset (k + n) := by
  induction n with
  | zero => exact Nat.le_refl _
  | succ n ih => exact Nat.le_trans (ih (Nat.le_of_succ_le hk)) (h.next (k + n) hk)

/-- No piece is beyond the end of the region. -/
theorem offset_le (h : Placed pieces offset region) (hk : k ≤ pieces.length) :
    offset k ≤ region.size := by
  obtain ⟨n, hn⟩ := Nat.exists_eq_add_of_le hk
  rw [← h.last, hn]
  exact h.offset_add (Nat.le_of_eq hn.symm)

/-- Pieces of a region that is not too large are near each other. -/
theorem near (h : Placed pieces offset region) (hsize : region.size < 2 ^ 31) {j : Nat}
    (hj : j ≤ pieces.length) (hk : k ≤ pieces.length) : Near (offset j) (offset k) := by
  have := h.offset_le hj
  have := h.offset_le hk
  constructor <;> omega

end Placed

/-- From the start of an item on the code has the bytes of the item. -/
theorem exists_drop_bytes {emissions : List Emission} {settled : List Item} {a : Assembly}
    (hlinked : Linked emissions settled a) {item : Item} (hitem : settled[k]? = some item) :
    ∃ rest, a.bytes.drop (startOf settled k) = (item.write (labelOffsets settled)).bytes ++
      rest := by
  have hwritten : a.items.toList[k]? = some (item.write (labelOffsets settled)) := by
    rw [hlinked.items, List.getElem?_map, hitem, Option.map_some]
  have hat := bytes_at_startOf hlinked.length_bytes hwritten
  rw [startOf_congr hlinked.map_size] at hat
  rw [← hat]
  exact ⟨_, (List.take_append_drop _ _).symm⟩

/-- Every piece that was linked has an item. -/
theorem exists_item_of_piece {settled : List Item} {a : Assembly}
    (hlinked : Linked (pieces.map Piece.emission) settled a) {p : Piece}
    (hp : pieces[k]? = some p) : ∃ item, settled[k]? = some item ∧
      (pieces.map Piece.emission)[k]? = some p.emission := by
  have hlength : pieces.length = settled.length := by
    rw [← hlinked.grown.length_eq, List.length_map, List.length_map]
  obtain ⟨hlt, -⟩ := List.getElem?_eq_some_iff.mp hp
  exact ⟨_, List.getElem?_eq_getElem (hlength ▸ hlt),
    by rw [List.getElem?_map, hp, Option.map_some]⟩

/-- Linked pieces that are written to a region of their size are in place there. -/
theorem placed_of_linked {settled : List Item} {a : Assembly}
    (hlinked : Linked (pieces.map Piece.emission) settled a) {code : Region}
    (hsize : region.size = a.codeSize) (hmappable : region.size < mappableSize)
    (hwrite : region.write 0 a.bytes = (code, none)) : Placed pieces (startOf settled) code := by
  obtain ⟨-, hcode, -⟩ := Region.frame_of_write hwrite
  have hlength : pieces.length = settled.length := by
    rw [← hlinked.grown.length_eq, List.length_map, List.length_map]
  have hbytes : region.size = a.bytes.length := by
    rw [hsize, Assembly.length_bytes hlinked.length_bytes]
  have hitem : ∀ (k : Nat) (p : Piece), pieces[k]? = some p → ∃ item, settled[k]? = some item ∧
      (pieces.map Piece.emission)[k]? = some p.emission := fun _ _ => exists_item_of_piece hlinked
  -- An item whose bytes are those of an instruction is read as the instruction.
  have hreads : ∀ (k : Nat) (item : Item) (i : Instr), settled[k]? = some item →
      (item.write (labelOffsets settled)).bytes.length = item.size →
      (item.write (labelOffsets settled)).bytes = encode i →
      ReadsAt code (startOf settled k) (startOf settled (k + 1)) i := by
    intro k item i hitem hlen hi
    obtain ⟨rest, hrest⟩ := exists_drop_bytes hlinked hitem
    rw [hi] at hrest hlen
    exact ⟨instrAt?_of_drop (window_of_write hbytes hwrite _ _) hrest,
      by rw [startOf_succ hitem, hlen]⟩
  refine ⟨startOf_zero _, ?_, hcode ▸ hmappable, ?_, ?_, ?_, ?_, ?_⟩
  · rw [hcode, hsize, hlinked.codeSize_eq, startOf,
      List.take_of_length_le (Nat.le_of_eq hlength.symm)]
  · intro k hk
    obtain ⟨item, hitem, -⟩ := hitem k _ (List.getElem?_eq_getElem hk)
    rw [startOf_succ hitem]
    exact Nat.le_add_right _ _
  · intro k id hk
    obtain ⟨item, hitem, hemission⟩ := hitem k _ hk
    obtain ⟨hlen, hi⟩ := hlinked.bytes_write hitem hemission
    rw [startOf_succ hitem, ← hlen, hi]
    rfl
  · intro k i hk
    obtain ⟨item, hitem, hemission⟩ := hitem k _ hk
    obtain ⟨hlen, hi⟩ := hlinked.bytes_write hitem hemission
    exact hreads k item i hitem hlen hi
  · intro k cond target j hk hj
    obtain ⟨item, hsettled, hemission⟩ := hitem k _ hk
    obtain ⟨destination, hdestination, hlabel⟩ := hitem j _ hj
    obtain ⟨hlen, hi⟩ := hlinked.bytes_write hsettled hemission
    refine ⟨_, hreads k item _ hsettled hlen hi, ?_⟩
    have htarget := labelOffsets_getElem?_of_label hlinked.nodup hdestination
      (hlinked.grown_item hdestination hlabel).form
    rw [startOf_succ hsettled, ← hlinked.offset_eq hsettled, ← hlinked.offset_eq hdestination]
    exact hlinked.jumpsTo hsettled hemission htarget
  · intro k cond target hk
    obtain ⟨item, -, hemission⟩ := hitem k _ hk
    obtain ⟨j, -, hlabel, -⟩ := hlinked.exists_label hemission
    rw [List.getElem?_map] at hlabel
    obtain ⟨p, hp, hemit⟩ := Option.map_eq_some_iff.mp hlabel
    cases p with
    | label id =>
        cases hemit
        exact ⟨j, hp⟩
    | instr | jump | loadCode => cases hemit

section Compiled

variable {ctx : Context} {id : SymbolId} {method : Method}
  (h : compileMethod ctx natives alloc id method = (alloc', .ok (compiled, relocations)))

include h

/-- The steps of compiling a method: its pieces are linked and written to a new region of their
size. -/
theorem link_of_compileMethod : ∃ pieces linked region,
    bodyPieces ⟨ctx, natives, method.body.frameSlots⟩ method.body.code = .ok pieces ∧
      (Assembly.ofEmissions (pieces.map Piece.emission)).link = (linked, .ok linked.codeSize) ∧
      Allocates alloc linked.codeSize region alloc' ∧
      region.write 0 linked.bytes = (compiled.code, none) ∧
      relocations = relocationsOf method.id pieces linked.items.toList := by
  obtain ⟨pieces, linked, size, region, hassembled, hallocates, hwrite, -, hrelocations⟩ :=
    compileMethod_eq_ok_iff.mp h
  obtain ⟨-, hpieces, hlink⟩ := assembleMethod_eq_ok_iff.mp hassembled
  rw [assembly_eq_ofEmissions] at hlink
  obtain ⟨hsize, -⟩ := linked_of_link (congrArg Prod.snd hlink)
  obtain rfl : size = linked.codeSize := by rwa [hlink] at hsize
  exact ⟨pieces, linked, region, hpieces, hlink, hallocates, hwrite, hrelocations⟩

/-- The pieces of a method that was compiled are linked, and in place in its region. -/
theorem exists_of_compileMethod : ∃ pieces linked settled, ∃ region : Region,
    bodyPieces ⟨ctx, natives, method.body.frameSlots⟩ method.body.code = .ok pieces ∧
      Linked (pieces.map Piece.emission) settled linked ∧ region.size = linked.bytes.length ∧
      region.write 0 linked.bytes = (compiled.code, none) ∧
      Placed pieces (startOf settled) compiled.code ∧
      relocations = relocationsOf method.id pieces linked.items.toList := by
  obtain ⟨pieces, linked, region, hpieces, hlink, hallocates, hwrite, hrelocations⟩ :=
    link_of_compileMethod h
  obtain ⟨-, settled, hlinked⟩ := linked_of_link (congrArg Prod.snd hlink)
  rw [hlink] at hlinked
  have hsize : region.size = linked.codeSize := by rw [hallocates.region]
  exact ⟨pieces, linked, settled, region, hpieces, hlinked,
    hsize.trans (Assembly.length_bytes hlinked.length_bytes).symm, hwrite,
    placed_of_linked hlinked hsize (hsize ▸ hallocates.mappable) hwrite, hrelocations⟩

/-- The pieces of a method that was compiled are in place in its region. -/
theorem placed_of_compileMethod : ∃ pieces offset items,
    bodyPieces ⟨ctx, natives, method.body.frameSlots⟩ method.body.code = .ok pieces ∧
      Placed pieces offset compiled.code ∧ relocations = relocationsOf method.id pieces items := by
  obtain ⟨pieces, linked, settled, region, hpieces, -, -, -, hplaced, hrelocations⟩ :=
    exists_of_compileMethod h
  exact ⟨pieces, startOf settled, _, hpieces, hplaced, hrelocations⟩

end Compiled

/-! ### Where the code of an instruction is -/

/-- Where in some pieces the blocks of instructions are. The block of an instruction is a label, if
jumps name the instruction, and the code of its template; at the end there may be a label alone. -/
structure Blocks (site : Site) (labels : Std.HashSet Nat) (index : Nat) (insts : List Inst)
    (pieces : List Piece) (start : Nat → Nat) : Prop where
  block : ∀ i inst, insts[i]? = some inst → ∃ fresh code, template site fresh inst = .ok code ∧
    labelAt labels (index + i) ++ code <+: pieces.drop (start i) ∧
    start (i + 1) = start i + (labelAt labels (index + i) ++ code).length
  last : pieces.drop (start insts.length) = labelAt labels (index + insts.length)
  bounded : start insts.length ≤ pieces.length

/-- Pieces in front move all blocks. -/
theorem Blocks.append_left {site : Site} {index : Nat} {insts : List Inst} {start : Nat → Nat}
    (h : Blocks site labels index insts pieces start) (front : List Piece) :
    Blocks site labels index insts (front ++ pieces) fun i => front.length + start i := by
  refine ⟨fun i inst hi => ?_, ?_, ?_⟩
  · obtain ⟨fresh, code, htemplate, hblock, hnext⟩ := h.block i inst hi
    refine ⟨fresh, code, htemplate, ?_, by rw [hnext, Nat.add_assoc]⟩
    rwa [List.drop_length_add_append]
  · rw [List.drop_length_add_append]
    exact h.last
  · rw [List.length_append]
    exact Nat.add_le_add_left h.bounded _

/-- Where blocks start if a block of some length is put in front. -/
def startsAfter (length : Nat) (start : Nat → Nat) : Nat → Nat
  | 0 => 0
  | i + 1 => length + start i

/-- The pieces of instructions have a block for each. -/
theorem exists_blocks {site : Site} {index fresh : Nat} {insts : List Inst}
    (h : instructionPieces site labels index fresh insts = .ok pieces) :
    ∃ start : Nat → Nat, start 0 = 0 ∧ Blocks site labels index insts pieces start := by
  induction insts generalizing index fresh pieces with
  | nil =>
      cases h
      exact ⟨fun _ => 0, rfl, ⟨fun i inst hi => by simp at hi, rfl, Nat.zero_le _⟩⟩
  | cons inst insts ih =>
      obtain ⟨code, htemplate, h⟩ := bind_eq_ok.mp h
      obtain ⟨rest, hrest, h⟩ := bind_eq_ok.mp h
      cases h
      obtain ⟨start, hzero, hblocks⟩ := ih hrest
      have hmoved := hblocks.append_left (labelAt labels index ++ code)
      refine ⟨startsAfter (labelAt labels index ++ code).length start, rfl,
        ⟨fun i inst' hi => ?_, ?_, ?_⟩⟩
      · cases i with
        | zero =>
            cases hi
            exact ⟨fresh, code, htemplate, List.prefix_append _ _, by simp [startsAfter, hzero]⟩
        | succ i =>
            rw [← Nat.add_assoc, Nat.add_right_comm]
            exact hmoved.block i inst' hi
      · rw [List.length_cons, ← Nat.add_assoc, Nat.add_right_comm]
        exact hmoved.last
      · exact hmoved.bounded

/-- The pieces of a body have a block for each instruction. -/
theorem exists_blocks_of_bodyPieces {site : Site} {insts : List Inst}
    (h : bodyPieces site insts = .ok pieces) :
    ∃ start : Nat → Nat, Blocks site (branchLabels insts) 0 insts pieces start := by
  obtain ⟨check, -, h⟩ := bind_eq_ok.mp h
  obtain ⟨body, hbody, h⟩ := bind_eq_ok.mp h
  cases h
  obtain ⟨start, -, hblocks⟩ := exists_blocks hbody
  exact ⟨_, hblocks.append_left check⟩

/-! ### Code of the core -/

/-- An instruction of the core needs no labels. -/
theorem labelCount_of_isCore {kind : Kind} (h : kind.isCore = true) : labelCount kind = 0 := by
  cases kind with
  | arith ty op =>
      cases op with
      | div | rem => cases h
      | _ => rfl
  | convert conversion =>
      cases conversion with
      | toIntegral => cases h
      | _ => rfl
  | newIntArray | intArrayGet | intArraySet => cases h
  | _ => rfl

/-- The code of an instruction of the core is a jump or straight code. -/
theorem template_cases {site : Site} {inst : Inst} {fresh : Nat} {code : List Piece}
    (hcore : inst.kind.isCore = true) (h : template site fresh inst = .ok code) :
    Plain code ∨ inst.kind.isJump = true ∧
      ∃ cond label, code = [.jump cond label] ∧ inst.args.head?.bind branchLabel? = some label := by
  cases template_shape h with
  | jump hkind hlabel => exact .inr ⟨hkind, _, _, rfl, hlabel⟩
  | call hkind =>
      rw [hkind] at hcore
      cases hcore
  | enclosed _ _ hcode =>
      rw [labelCount_of_isCore hcore] at hcode
      exact .inl hcode.plain

/-! ### Blocks in place -/

/-- A piece of a part of some pieces. -/
theorem getElem?_of_isPrefix_drop {part : List Piece} {j : Nat} {p : Piece}
    (h : part <+: pieces.drop k) (hj : part[j]? = some p) : pieces[k + j]? = some p := by
  obtain ⟨rest, hrest⟩ := h
  obtain ⟨hlt, -⟩ := List.getElem?_eq_some_iff.mp hj
  rw [← List.getElem?_drop, ← hrest, List.getElem?_append_left hlt, hj]

/-- A label takes no room. -/
theorem Placed.offset_labelAt {offset : Nat → Nat} (hplaced : Placed pieces offset region) {t : Nat}
    (h : labelAt labels t <+: pieces.drop k) :
    offset (k + (labelAt labels t).length) = offset k := by
  unfold labelAt at h ⊢
  split
  · rename_i hcontains
    rw [if_pos hcontains] at h
    exact hplaced.label k t (getElem?_of_isPrefix_drop (j := 0) h rfl)
  · rfl

namespace Blocks

variable {site : Site} {labels : Std.HashSet Nat} {insts : List Inst} {pieces : List Piece}
  {start offset : Nat → Nat} {region : Region}

/-- Blocks start within the pieces. -/
theorem start_le (h : Blocks site labels 0 insts pieces start) (hk : k ≤ insts.length) :
    start k ≤ pieces.length := by
  obtain ⟨n, hn⟩ := Nat.exists_eq_add_of_le hk
  induction n generalizing k with
  | zero =>
      obtain rfl : k = insts.length := hn.symm
      exact h.bounded
  | succ n ih =>
      have hlt : k < insts.length := by omega
      obtain ⟨_, _, -, -, hnext⟩ := h.block k _ (List.getElem?_eq_getElem hlt)
      have hle := ih (k := k + 1) hlt (by omega)
      omega

/-- The label of an instruction that jumps name is the first piece of its block. -/
theorem label (h : Blocks site labels 0 insts pieces start) {t : Nat} (ht : t ≤ insts.length)
    (hcontains : labels.contains t = true) : pieces[start t]? = some (.label t) := by
  have hlabel : labelAt labels (0 + t) = [.label t] := by
    rw [Nat.zero_add, labelAt, if_pos hcontains]
  obtain hlt | rfl := Nat.lt_or_eq_of_le ht
  · obtain ⟨fresh, code, -, hblock, -⟩ := h.block t _ (List.getElem?_eq_getElem hlt)
    rw [hlabel] at hblock
    exact getElem?_of_isPrefix_drop (j := 0) hblock rfl
  · have hlast : pieces.drop (start insts.length) = [.label insts.length] := h.last.trans hlabel
    have hblock : [.label insts.length] <+: pieces.drop (start insts.length) :=
      hlast.symm ▸ List.prefix_rfl
    exact getElem?_of_isPrefix_drop (j := 0) hblock rfl

/-- The last block ends the region. -/
theorem offset_last (h : Blocks site labels 0 insts pieces start)
    (hplaced : Placed pieces offset region) : offset (start insts.length) = region.size := by
  have hlength := congrArg List.length h.last
  rw [List.length_drop] at hlength
  have hbounded := h.bounded
  have hsum : pieces.length = start insts.length + (labelAt labels (0 + insts.length)).length := by
    omega
  rw [← hplaced.last, hsum, hplaced.offset_labelAt (h.last ▸ List.prefix_rfl)]

/-- The code of an instruction in place. -/
theorem exists_code (h : Blocks site labels 0 insts pieces start)
    (hplaced : Placed pieces offset region) {i : Nat} {inst : Inst} (hi : insts[i]? = some inst) :
    ∃ fresh code k, template site fresh inst = .ok code ∧ code <+: pieces.drop k ∧
      offset k = offset (start i) ∧ offset (k + code.length) = offset (start (i + 1)) ∧
      start i ≤ k ∧ k + code.length = start (i + 1) := by
  obtain ⟨fresh, code, htemplate, hblock, hnext⟩ := h.block i inst hi
  have hsum : start i + (labelAt labels (0 + i)).length + code.length = start (i + 1) := by
    rw [hnext, List.length_append, Nat.add_assoc]
  refine ⟨fresh, code, start i + (labelAt labels (0 + i)).length, htemplate, ?_,
    hplaced.offset_labelAt ((List.prefix_append _ _).trans hblock), by rw [hsum],
    Nat.le_add_right _ _, hsum⟩
  obtain ⟨rest, hrest⟩ := hblock
  rw [← List.drop_drop, ← hrest, List.append_assoc, List.drop_left]
  exact List.prefix_append _ _

/-- The label that an instruction of the core jumps to. -/
theorem label_of_jump (h : Blocks site (branchLabels insts) 0 insts pieces start)
    {fresh target : Nat} {inst : Inst} {cond : Option Cond} (hmem : inst ∈ insts)
    (hcore : inst.kind.isCore = true)
    (htemplate : template site fresh inst = .ok [.jump cond target])
    (htarget : target ≤ insts.length) : pieces[start target]? = some (.label target) := by
  refine h.label htarget ?_
  obtain ⟨instrs, hinstrs⟩ | ⟨hjump, _, _, hcode, hlabel⟩ := template_cases hcore htemplate
  · cases instrs with
    | nil => cases hinstrs
    | cons _ _ => cases hinstrs
  · cases hcode
    rw [branchLabels, Std.HashSet.contains_ofList, List.contains_iff_mem, List.mem_filterMap]
    exact ⟨inst, hmem, by rw [if_pos hjump, hlabel]⟩

end Blocks

end SlotJit.Codegen

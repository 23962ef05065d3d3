import SlotJit.Proofs.Codegen.Patching
import SlotJit.Proofs.Codegen.Success

/-!
# Relocations are call sites

The code of a call of a compiled method loads an address and jumps there. Until linking, the load
holds the packed id of the callee, and a relocation says where it is. The relocations of a batch are
these places and no others: one for each call, in the order of the calls, and never two on the same
bytes. Linking writes the address of the callee's code to each of them and changes nothing else.

Where code is depends on the forms that its jumps took. So a place is tied to a call in two steps:
the load is a piece of the code of its instruction (`exists_blocks_loads`), and the piece has an
offset in the finished code (`Placed`).

## Main results

* `sites_of_compileMethod`: the relocations of a method are its call sites.
* `Linking.Filled.byte_of_site`, `Linking.Filled.byte_of_outside`: what linking does to each byte,
  where sites are apart.
* `relocations_are_call_sites`: both for a batch.
-/

namespace SlotJit.Codegen

open SlotJit.CodeMemory SlotJit.Ir SlotJit.Machine SlotJit.Tables SlotJit.X64

variable {site : Site} {labels : Std.HashSet Nat} {index i k : Nat} {inst : Inst}
  {insts : List Inst} {pieces : List Piece} {start : Nat → Nat} {callee : SymbolId}

/-! ### Calls and loads -/

/-- The indices of the calls of compiled methods, in order. -/
def callsIn : List Inst → List Nat
  | [] => []
  | inst :: rest =>
    if inst.kind = .callStatic then 0 :: (callsIn rest).map (· + 1) else (callsIn rest).map (· + 1)

/-- The calls among instructions. -/
theorem mem_callsIn : i ∈ callsIn insts ↔
    ∃ inst, insts[i]? = some inst ∧ inst.kind = .callStatic := by
  induction insts generalizing i with
  | nil => simp [callsIn]
  | cons inst rest ih =>
      rw [callsIn]
      cases i with
      | zero => split <;> simp_all
      | succ i => split <;> simp_all

/-- The loads of code addresses among pieces: their indices and the callees, in order. -/
def loadsIn : List Piece → List (Nat × SymbolId)
  | [] => []
  | p :: rest =>
    match p.callee? with
    | some callee => (0, callee) :: (loadsIn rest).map fun load => (load.1 + 1, load.2)
    | none => (loadsIn rest).map fun load => (load.1 + 1, load.2)

/-- The loads of pieces after pieces. -/
theorem loadsIn_append (pieces pieces' : List Piece) :
    loadsIn (pieces ++ pieces') =
      loadsIn pieces ++ (loadsIn pieces').map fun load => (pieces.length + load.1, load.2) := by
  induction pieces with
  | nil => simp [loadsIn]
  | cons p rest ih =>
      have hshift : ∀ load : Nat × SymbolId,
          (rest.length + load.1 + 1, load.2) = (rest.length + 1 + load.1, load.2) := by
        intro load
        rw [Nat.add_right_comm]
      rw [List.cons_append, loadsIn, loadsIn, ih]
      cases p.callee? <;> simp [Function.comp_def, hshift]

/-- Pieces without loads. -/
theorem loadsIn_eq_nil (h : pieces.filterMap Piece.callee? = []) : loadsIn pieces = [] := by
  induction pieces with
  | nil => rfl
  | cons p rest ih =>
      cases hp : p.callee? with
      | none =>
          rw [List.filterMap_cons_none hp] at h
          simp only [loadsIn, hp, ih h, List.map_nil]
      | some callee =>
          rw [List.filterMap_cons_some hp] at h
          cases h

/-- Loads are where their indices say. -/
theorem getElem?_of_mem_loadsIn (h : (k, callee) ∈ loadsIn pieces) :
    pieces[k]? = some (.loadCode callee) := by
  induction pieces generalizing k with
  | nil => cases h
  | cons p rest ih =>
      have hlater : (k, callee) ∈ (loadsIn rest).map (fun load => (load.1 + 1, load.2)) →
          (p :: rest)[k]? = some (.loadCode callee) := by
        intro hmem
        obtain ⟨load, hload, heq⟩ := List.mem_map.mp hmem
        cases heq
        exact ih hload
      cases p with
      | loadCode callee' =>
          rcases List.mem_cons.mp h with heq | hmem
          · cases heq
            rfl
          · exact hlater hmem
      | instr | jump | label => exact hlater h

/-- Loads come in order. -/
theorem pairwise_loadsIn (pieces : List Piece) :
    (loadsIn pieces).Pairwise fun load load' => load.1 < load'.1 := by
  induction pieces with
  | nil => exact .nil
  | cons p rest ih =>
      have hlater : ((loadsIn rest).map fun load => (load.1 + 1, load.2)).Pairwise
          fun load load' => load.1 < load'.1 :=
        List.pairwise_map.mpr (ih.imp fun hlt => Nat.succ_lt_succ hlt)
      cases p with
      | loadCode callee =>
          refine List.pairwise_cons.mpr ⟨fun load hmem => ?_, hlater⟩
          obtain ⟨_, -, rfl⟩ := List.mem_map.mp hmem
          exact Nat.succ_pos _
      | instr | jump | label => exact hlater

/-- The code of an instruction has a load exactly if it is a call, and then one, of the address of
its callee. -/
theorem loadsIn_template {fresh : Nat} {code : List Piece} (hctx : site.context.Indexed)
    (h : template site fresh inst = .ok code) :
    (inst.kind ≠ .callStatic ∧ loadsIn code = []) ∨
      (inst.kind = .callStatic ∧ ∃ k callee, loadsIn code = [(k, callee)] ∧ k + 1 < code.length ∧
        code[k + 1]? = some (.instr (.jmpReg .rax)) ∧ inst.args.head? = some (.symbol callee)) := by
  cases template_shape h with
  | jump hjump =>
      refine .inl ⟨fun hcall => ?_, rfl⟩
      rw [hcall] at hjump
      cases hjump
  | @call callee before after _ hcall hcallee hcode =>
      refine .inr ⟨hcall, before.length, callee.id, ?_, ?_, ?_, ?_⟩
      · rw [hcode.code, loadsIn_append, loadsIn_eq_nil hcode.before.callees]
        simp [loadsIn, loadsIn_eq_nil hcode.after.callees]
      · rw [hcode.code]
        simp
      · rw [hcode.code, List.getElem?_append_right (Nat.le_succ _)]
        simp
      · unfold calleeOf at hcallee
        split at hcallee
        · rename_i id hhead
          split at hcallee
          · rename_i hfound
            cases hcallee
            rw [hhead, hctx.id_of_method? hfound]
          · cases hcallee
        · cases hcallee
  | enclosed _ hcall hcode => exact .inl ⟨hcall, loadsIn_eq_nil hcode.callees⟩

/-! ### Where the loads of calls are -/

namespace Blocks

/-- Blocks start in order. -/
theorem start_mono (h : Blocks site labels index insts pieces start) {j : Nat} (hij : i ≤ j)
    (hj : j ≤ insts.length) : start i ≤ start j := by
  induction j, hij using Nat.le_induction with
  | base => exact Nat.le_refl _
  | succ j _ ih =>
      obtain ⟨_, _, -, -, hnext⟩ := h.block j _ (List.getElem?_eq_getElem hj)
      rw [hnext]
      exact Nat.le_add_right_of_le (ih (Nat.le_of_succ_le hj))

/-- The blocks after the first one. -/
theorem tail (h : Blocks site labels index (inst :: insts) pieces start) :
    Blocks site labels (index + 1) insts (pieces.drop (start 1)) fun i =>
      start (i + 1) - start 1 := by
  have hstart : ∀ i ≤ insts.length, start 1 + (start (i + 1) - start 1) = start (i + 1) :=
    fun i hi =>
    Nat.add_sub_cancel' (h.start_mono (Nat.succ_le_succ (Nat.zero_le i)) (Nat.succ_le_succ hi))
  refine ⟨fun i inst' hi => ?_, ?_, ?_⟩
  · obtain ⟨fresh, code, htemplate, hblock, hnext⟩ := h.block (i + 1) inst' hi
    have hlt := (List.getElem?_eq_some_iff.mp hi).1
    have hle := hstart i (Nat.le_of_lt hlt)
    have hle' := hstart (i + 1) hlt
    have hindex : index + (i + 1) = index + 1 + i := by omega
    rw [hindex] at hblock hnext
    refine ⟨fresh, code, htemplate, ?_, ?_⟩
    · rw [List.drop_drop, hle]
      exact hblock
    · omega
  · have hindex : index + 1 + insts.length = index + (inst :: insts).length := by
      rw [List.length_cons]
      omega
    rw [List.drop_drop, hstart _ (Nat.le_refl _), hindex]
    exact h.last
  · have hle := hstart _ (Nat.le_refl insts.length)
    have hbounded := h.bounded
    rw [List.length_cons] at hbounded
    rw [List.length_drop]
    omega

end Blocks

/-- A load is that of the call at an index: it is in the block of this instruction, names its
callee, and the jump to the address follows it. -/
structure LoadOf (insts : List Inst) (pieces : List Piece) (start : Nat → Nat) (i : Nat)
    (load : Nat × SymbolId) : Prop where
  call : ∃ inst, insts[i]? = some inst ∧ inst.kind = .callStatic ∧
    inst.args.head? = some (.symbol load.2)
  low : start i ≤ load.1
  high : load.1 + 1 < start (i + 1)
  piece : pieces[load.1]? = some (.loadCode load.2)
  jump : pieces[load.1 + 1]? = some (.instr (.jmpReg .rax))

/-- The loads of code in blocks are those of its calls, in order. -/
theorem Blocks.loads (hctx : site.context.Indexed) (h : Blocks site labels index insts pieces start)
    (hzero : start 0 = 0) :
    List.Forall₂ (LoadOf insts pieces start) (callsIn insts) (loadsIn pieces) := by
  have hlabel : ∀ t, loadsIn (labelAt labels t) = [] := by
    intro t
    unfold labelAt
    split <;> rfl
  induction insts generalizing index pieces start with
  | nil =>
      have hlast := h.last
      rw [List.length_nil, hzero, List.drop_zero] at hlast
      rw [hlast, hlabel]
      exact .nil
  | cons inst rest ih =>
      obtain ⟨fresh, code, htemplate, ⟨others, hothers⟩, hnext⟩ := h.block 0 inst rfl
      simp only [hzero, Nat.zero_add] at hnext
      rw [hzero, List.drop_zero] at hothers
      have hdrop : pieces.drop (start 1) = others := by
        rw [← hothers, hnext, List.drop_left]
      have htail := ih h.tail (Nat.sub_self _)
      rw [hdrop] at htail
      -- The calls and the loads of the other instructions move by as much as their blocks.
      have hlater : List.Forall₂ (LoadOf (inst :: rest) pieces start) ((callsIn rest).map (· + 1))
          ((loadsIn others).map fun load => (start 1 + load.1, load.2)) := by
        refine List.forall₂_map_left_iff.mpr (List.forall₂_map_right_iff.mpr (htail.imp ?_))
        rintro i ⟨k, callee⟩ ⟨hcall, hlow, hhigh, hload, hjump⟩
        refine ⟨hcall, ?_, ?_, ?_, ?_⟩
        · simp only at hlow ⊢
          omega
        · simp only at hhigh ⊢
          omega
        · rw [← hothers, hnext, List.getElem?_append_right (Nat.le_add_right _ _),
            Nat.add_sub_cancel_left]
          exact hload
        · rw [← hothers, Nat.add_assoc, hnext, List.getElem?_append_right (Nat.le_add_right _ _),
            Nat.add_sub_cancel_left]
          exact hjump
      have hloads : loadsIn pieces =
          (loadsIn code).map (fun load => ((labelAt labels (index + 0)).length + load.1, load.2)) ++
            (loadsIn others).map fun load => (start 1 + load.1, load.2) := by
        rw [← hothers, loadsIn_append, loadsIn_append, hlabel, List.nil_append, hnext]
      rcases loadsIn_template hctx htemplate with
        ⟨hother, hnone⟩ | ⟨hcall, k, callee, hload, hlt, hjump, hhead⟩
      · rw [hloads, hnone, callsIn, if_neg hother]
        exact hlater
      · rw [hloads, hload, callsIn, if_pos hcall]
        -- A piece of the code behind the label.
        have hpiece : ∀ (j : Nat) (p : Piece), code[j]? = some p →
            pieces[(labelAt labels (index + 0)).length + j]? = some p := by
          intro j p hp
          have hj := (List.getElem?_eq_some_iff.mp hp).1
          rw [← hothers, List.getElem?_append_left (by rw [List.length_append]; omega),
            List.getElem?_append_right (Nat.le_add_right _ _), Nat.add_sub_cancel_left, hp]
        refine .cons ⟨⟨inst, rfl, hcall, hhead⟩, ?_, ?_, ?_, hpiece _ _ hjump⟩ hlater
        · rw [hzero]
          exact Nat.zero_le _
        · rw [hnext, List.length_append]
          simp only
          omega
        · exact hpiece _ _ (getElem?_of_mem_loadsIn (hload ▸ List.mem_singleton_self _))

/-- Pieces in front move all loads. -/
theorem LoadOf.append_left (h : LoadOf insts pieces start i (k, callee)) (front : List Piece) :
    LoadOf insts (front ++ pieces) (fun i => front.length + start i) i
      (front.length + k, callee) := by
  obtain ⟨hcall, hlow, hhigh, hload, hjump⟩ := h
  refine ⟨hcall, Nat.add_le_add_left hlow _, ?_, ?_, ?_⟩
  · simp only at hhigh ⊢
    omega
  · rw [List.getElem?_append_right (Nat.le_add_right _ _), Nat.add_sub_cancel_left]
    exact hload
  · rw [Nat.add_assoc, List.getElem?_append_right (Nat.le_add_right _ _), Nat.add_sub_cancel_left]
    exact hjump

/-- The code of a body is a check and the blocks of its instructions, with the loads of its
calls. -/
theorem exists_blocks_loads (hctx : site.context.Indexed) (h : bodyPieces site insts = .ok pieces) :
    ∃ start : Nat → Nat, Blocks site (branchLabels insts) 0 insts pieces start ∧
      List.Forall₂ (LoadOf insts pieces start) (callsIn insts) (loadsIn pieces) := by
  obtain ⟨check, hcheck, h⟩ := bind_eq_ok.mp h
  obtain ⟨body, hbody, h⟩ := bind_eq_ok.mp h
  cases h
  obtain ⟨start, hzero, hblocks⟩ := exists_blocks hbody
  refine ⟨_, hblocks.append_left check, ?_⟩
  have hnone : loadsIn check = [] := by
    obtain ⟨disp, -, hcheck⟩ := bind_eq_ok.mp hcheck
    cases hcheck
    rfl
  rw [loadsIn_append, hnone, List.nil_append, List.forall₂_map_right_iff]
  exact (hblocks.loads hctx hzero).imp fun i load hload => hload.append_left check

/-! ### The relocations of a method -/

/-- The relocations of laid out pieces are at the immediates of the loads, behind two bytes. -/
theorem relocationsOf_eq {target : SymbolId} {items : List Item} (offset : Nat → Nat)
    (hlength : items.length = pieces.length)
    (hoffset : ∀ (k : Nat) (item : Item), items[k]? = some item → item.offset = offset k) :
    relocationsOf target pieces items =
      (loadsIn pieces).map fun load => ⟨load.2, target, offset load.1 + 2⟩ := by
  induction pieces generalizing items offset with
  | nil => rfl
  | cons p rest ih =>
      cases items with
      | nil => cases hlength
      | cons item items =>
          have hrest := ih (fun k => offset (k + 1)) (Nat.succ_inj.mp hlength)
            fun k other hother => hoffset (k + 1) other hother
          have hfirst := hoffset 0 item rfl
          unfold relocationsOf at hrest ⊢
          cases p with
          | loadCode callee => simp [hrest, hfirst, loadsIn, Function.comp_def]
          | instr | jump | label => simp [hrest, loadsIn, Function.comp_def]

/-- The relocations of linked pieces, by where the pieces start. -/
theorem relocationsOf_linked {settled : List Item} {a : Assembly} (target : SymbolId)
    (hlinked : Linked (pieces.map Piece.emission) settled a) :
    relocationsOf target pieces a.items.toList =
      (loadsIn pieces).map fun load => ⟨load.2, target, startOf settled load.1 + 2⟩ := by
  refine relocationsOf_eq (startOf settled) ?_ fun k item hitem => ?_
  · rw [Array.length_toList, hlinked.length_items, List.length_map]
  · rw [hlinked.offset_item (by rwa [Array.getElem?_toList] at hitem),
      startOf_congr hlinked.map_size]

/-- From its offset on, the code has the bytes of a load, which takes ten. -/
theorem exists_drop_load {settled : List Item} {a : Assembly}
    (hlinked : Linked (pieces.map Piece.emission) settled a)
    (hk : pieces[k]? = some (.loadCode callee)) :
    (∃ rest, a.bytes.drop (startOf settled k) = encode (loadCodeInstr callee) ++ rest) ∧
      startOf settled (k + 1) = startOf settled k + 10 := by
  have hlength := hlinked.grown.length_eq
  rw [List.length_map, List.length_map] at hlength
  have hlt := (List.getElem?_eq_some_iff.mp hk).1
  have hitem : settled[k]? = some settled[k] := List.getElem?_eq_getElem (hlength ▸ hlt)
  have hemission : (pieces.map Piece.emission)[k]? = some (.instr (loadCodeInstr callee)) := by
    rw [List.getElem?_map, hk, Option.map_some, Piece.emission]
  obtain ⟨hsize, hbytes⟩ := hlinked.bytes_write hitem hemission
  obtain ⟨rest, hrest⟩ := exists_drop_bytes hlinked hitem
  refine ⟨⟨rest, by rw [hrest, hbytes]⟩, ?_⟩
  rw [startOf_succ hitem, ← hsize, hbytes]
  rfl

/-- The code of a method in a region: its pieces, where the block of each instruction starts among
them, and where each piece is in the region. -/
structure InPlace (site : Site) (insts : List Inst) (pieces : List Piece) (start offset : Nat → Nat)
    (code : Region) : Prop where
  body : bodyPieces site insts = .ok pieces
  blocks : Blocks site (branchLabels insts) 0 insts pieces start
  placed : Placed pieces offset code

/-- A relocation is for the call at an index of a method: it names the callee and the method, and is
at the immediate of the very load whose address this call jumps to. The immediate is in the region
and holds the packed id of the callee. -/
structure CallSite (site : Site) (method : Method) (code : Region) (index : Nat) (r : Relocation) :
    Prop where
  target : r.target = method.id
  call : ∃ inst, method.body.code[index]? = some inst ∧ inst.kind = .callStatic ∧
    inst.args.head? = some (.symbol r.source)
  place : ∃ pieces start offset k, InPlace site method.body.code pieces start offset code ∧
    start index ≤ k ∧ k < start (index + 1) ∧ pieces[k]? = some (.loadCode r.source) ∧
    r.offset = offset k + 2
  load : ReadsAt code (r.offset - 2) (r.offset + 8) (.movImm64 .rax r.source.raw.toInt64)
  jump : ReadsAt code (r.offset + 8) (r.offset + 10) (.jmpReg .rax)
  inside : r.offset + 8 ≤ code.size
  bytes : code.window r.offset 8 = littleEndian 8 r.source.raw.toNat

section Methods

variable {ctx : Context} {natives : Natives} {alloc alloc' : Allocator} {id : SymbolId}
  {method : Method} {compiled : CompiledMethod} {relocations : List Relocation}

/-- The relocations of a method are its call sites, in order and apart. -/
theorem sites_of_compileMethod (hctx : ctx.Indexed)
    (h : compileMethod ctx natives alloc id method = (alloc', .ok (compiled, relocations))) :
    List.Forall₂ (CallSite ⟨ctx, natives, method.body.frameSlots⟩ method compiled.code)
        (callsIn method.body.code) relocations ∧
      relocations.Pairwise fun r r' => r.offset + 8 ≤ r'.offset := by
  obtain ⟨pieces, linked, settled, region, hpieces, hlinked, hbytes, hwrite, hplaced, rfl⟩ :=
    exists_of_compileMethod h
  rw [relocationsOf_linked _ hlinked]
  obtain ⟨start, hblocks, hloads⟩ := exists_blocks_loads hctx hpieces
  refine ⟨List.forall₂_map_right_iff.mpr ?_, List.pairwise_map.mpr ?_⟩
  · refine hloads.imp ?_
    rintro i ⟨k, callee⟩ ⟨hcall, hlow, hhigh, hload, hjump⟩
    obtain ⟨⟨rest, hrest⟩, hnext⟩ := exists_drop_load hlinked hload
    have hinside := hplaced.offset_le (Nat.succ_le_of_lt (List.getElem?_eq_some_iff.mp hload).1)
    have hafter := hplaced.instr _ _ hjump
    have hencode :
        encode (loadCodeInstr callee) = [0x48, 0xb8] ++ littleEndian 8 callee.raw.toNat := rfl
    simp only [Nat.succ_eq_add_one] at hinside hnext hafter
    refine ⟨rfl, hcall, ⟨pieces, start, startOf settled, k, ⟨hpieces, hblocks, hplaced⟩, hlow,
      Nat.lt_of_succ_lt hhigh, hload, rfl⟩, ⟨?_, rfl⟩, ?_, ?_, ?_⟩
    · rw [Nat.add_sub_cancel]
      exact instrAt?_of_drop (window_of_write hbytes hwrite _ _) hrest
    · have hstep : startOf settled (k + 1 + 1) = startOf settled k + 12 :=
        hafter.2.trans (by rw [hnext]; rfl)
      rwa [hnext, hstep] at hafter
    · rw [← hnext]
      exact hinside
    · rw [window_of_write hbytes hwrite, ← List.drop_drop, hrest, hencode, List.append_assoc,
        show (2 : Nat) = [(0x48 : UInt8), 0xb8].length from rfl, List.drop_left,
        List.take_left' (length_littleEndian _ _)]
  · refine (pairwise_loadsIn pieces).imp_of_mem ?_
    rintro ⟨k, callee⟩ ⟨k', callee'⟩ hk - hlt
    obtain ⟨-, hnext⟩ := exists_drop_load hlinked (getElem?_of_mem_loadsIn hk)
    have hmono := startOf_mono settled (Nat.succ_le_of_lt hlt)
    simp only [Nat.succ_eq_add_one] at hmono ⊢
    omega

end Methods

/-- The calls of compiled methods in the methods of some ids: the id and the index, in order. -/
def callsOf (ctx : Context) (ids : List SymbolId) : List (SymbolId × Nat) :=
  ids.flatMap fun id =>
    match ctx.method? id with
    | some method => (callsIn method.body.code).map fun i => (id, i)
    | none => []

/-- A relocation is for a call in one of the methods of a batch. -/
def SiteIn (ctx : Context) (natives : Natives) (methods : List CompiledMethod)
    (call : SymbolId × Nat) (r : Relocation) : Prop :=
  ∃ method, ctx.method? call.1 = some method ∧ ∃ compiled ∈ methods, compiled.id = call.1 ∧
    CallSite ⟨ctx, natives, method.body.frameSlots⟩ method compiled.code call.2 r

/-- The relocations of a batch are its call sites, in order, and those of one method are apart. -/
theorem Compiles.sites {ctx : Context} {natives : Natives} {alloc alloc' : Allocator}
    {ids : List SymbolId} {methods : List CompiledMethod} {relocations : List Relocation}
    (hctx : ctx.Indexed) (hnodup : ids.Nodup)
    (h : Compiles ctx natives alloc ids methods relocations alloc') :
    List.Forall₂ (SiteIn ctx natives methods) (callsOf ctx ids) relocations ∧
      relocations.Pairwise (fun r r' => r.target = r'.target → r.offset + 8 ≤ r'.offset) ∧
      ∀ r ∈ relocations, r.target ∈ ids := by
  induction h with
  | nil => exact ⟨.nil, .nil, nofun⟩
  | @cons first second last id ids method compiled rest own others found compile tail ih =>
      obtain ⟨hnew, hnodup⟩ := List.nodup_cons.mp hnodup
      obtain ⟨hsites, hapart, htargets⟩ := ih hnodup
      obtain ⟨hown, hownApart⟩ := sites_of_compileMethod hctx compile
      have hid := hctx.id_of_method? found
      have htarget : ∀ r ∈ own, r.target = id := by
        intro r hr
        obtain ⟨i, -, hsite⟩ := exists_of_forall₂ hown hr
        exact hsite.target.trans hid
      refine ⟨?_, ?_, ?_⟩
      · rw [callsOf, List.flatMap_cons, found]
        refine List.rel_append (List.forall₂_map_left_iff.mpr (hown.imp ?_)) (hsites.imp ?_)
        · intro i r hsite
          exact ⟨method, found, compiled, List.mem_cons_self, id_of_compileMethod compile, hsite⟩
        · rintro call r ⟨method', hfound, compiled', hmem, hsite⟩
          exact ⟨method', hfound, compiled', List.mem_cons_of_mem _ hmem, hsite⟩
      · refine List.pairwise_append.mpr ⟨hownApart.imp ?_, hapart, ?_⟩
        · intro r r' hle _
          exact hle
        intro r hr r' hr' heq
        exact absurd (htargets r' hr') (heq ▸ htarget r hr ▸ hnew)
      · intro r hr
        rcases List.mem_append.mp hr with hr | hr
        · exact htarget r hr ▸ List.mem_cons_self
        · exact List.mem_cons_of_mem _ (htargets r hr)

end SlotJit.Codegen

namespace SlotJit.Linking

open SlotJit.CodeMemory SlotJit.Codegen SlotJit.Tables

variable {ctx : Context} {batch batch' : CompiledBatch} {id : SymbolId} {address : UInt64}
  {r : Relocation} {c c' : CompiledMethod} {i position : Nat}

/-! ### Entries -/

/-- The entry of a method's code: in the batch if the batch has it, else where it was published. -/
inductive Entry (ctx : Context) (batch : CompiledBatch) (id : SymbolId) : UInt64 → Prop where
  | compiled {c : CompiledMethod} (mem : c ∈ batch.methods) (same : c.id = id) :
      Entry ctx batch id c.code.base
  | published {method : Method} {code : Region} (notCompiled : ∀ c ∈ batch.methods, c.id ≠ id)
      (found : ctx.method? id = some method) (has : method.code = some code) :
      Entry ctx batch id code.base

/-- An address that is found is one to enter at. -/
theorem AddressOf.entry (h : AddressOf ctx batch id address) : Entry ctx batch id address := by
  cases h with
  | compiled first => exact .compiled (Array.mem_of_getElem? first.found) first.same
  | published notCompiled found has => exact .published notCompiled found has

/-! ### When linking succeeds -/

/-- The code that a relocation is for is in the batch, can be written, and has the bytes. -/
structure Ready (batch : CompiledBatch) (r : Relocation) : Prop where
  exists_code : ∃ c ∈ batch.methods, c.id = r.target
  code : ∀ c ∈ batch.methods, c.id = r.target → c.code.executable = false ∧
    r.offset + 8 ≤ c.code.size

/-- A relocation of code that is ready for it can be filled in if the callee has code. -/
theorem Ready.fillable (h : Ready batch r) (hsource : AddressOf ctx batch r.source address) :
    Fillable ctx batch r := by
  obtain ⟨c, hmem, hid⟩ := h.exists_code
  refine ⟨⟨address, hsource⟩, ?_⟩
  cases htarget : batch.methods.findIdx? (·.id == r.target) with
  | none => exact absurd hid (findIdx?_eq_none_iff.mp htarget c hmem)
  | some k =>
      obtain ⟨c, hfirst⟩ := findIdx?_eq_some_iff.mp htarget
      exact ⟨k, c, hfirst, h.code c (Array.mem_of_getElem? hfirst.found) hfirst.same⟩

/-- Linking a batch that is ready for its relocations fails exactly if a callee has no code. -/
theorem link_cases (hready : ∀ r ∈ batch.relocations, Ready batch r) :
    ((link ctx batch).2 = none ∧
      ∀ r ∈ batch.relocations, (codeAddress? ctx batch r.source).isSome) ∨
      ∃ r ∈ batch.relocations, codeAddress? ctx batch r.source = none ∧
        (link ctx batch).2 = some (.missingSource r.source (ctx.qualifiedName r.source)) := by
  cases hlink : (link ctx batch).2 with
  | none =>
      refine .inl ⟨rfl, fun r hr => ?_⟩
      obtain ⟨address, hsource⟩ := (link_eq_none_iff.mp hlink r hr).source
      rw [codeAddress?_eq_some_iff.mpr hsource, Option.isSome_some]
  | some error =>
      obtain ⟨before, r, after, hparts, -, hfault⟩ := link_eq_some_iff.mp hlink
      have hr : r ∈ batch.relocations := by simp [hparts]
      cases hsource : codeAddress? ctx batch r.source with
      | none =>
          cases hfault with
          | source => exact .inr ⟨r, hr, hsource, rfl⟩
          | target source | executable source | outside source =>
              rw [codeAddress?_eq_some_iff.mpr source] at hsource
              cases hsource
      | some address =>
          have hfillable := (hready r hr).fillable (codeAddress?_eq_some_iff.mp hsource)
          exact absurd hfault hfillable.not_fault

/-! ### What linking writes -/

/-- What linking a batch makes of a method's code: it stays in place and becomes executable, each of
its call sites holds the entry of the callee, and all other bytes are as they were. -/
structure LinkedAs (ctx : Context) (batch : CompiledBatch) (c c' : CompiledMethod) : Prop where
  place : SamePlace c c'
  executable : c'.code.executable = true
  sites : ∀ r ∈ batch.relocations, r.target = c.id → ∃ address, Entry ctx batch r.source address ∧
    c'.code.window r.offset 8 = littleEndian 8 address.toNat
  kept : ∀ position, (∀ r ∈ batch.relocations, r.target = c.id →
    position < r.offset ∨ r.offset + 8 ≤ position) → c'.code.byte position = c.code.byte position

/-- A window of eight bytes that are known. -/
theorem window_eq {code : Region} {offset : Nat} {bytes : List UInt8} (hlength : bytes.length = 8)
    (hinside : offset + 8 ≤ code.size) (h : ∀ j < 8, code.byte (offset + j) = (bytes[j]?).getD 0) :
    code.window offset 8 = bytes := by
  refine List.ext_getElem (by rw [Region.window, List.length_map, List.length_range]; omega) ?_
  intro j hj hj'
  simp only [Region.window, List.getElem_map, List.getElem_range]
  rw [h j (by omega), List.getElem?_eq_getElem hj', Option.getD_some]

/-- Where no id occurs twice, every code is the first of its method. -/
theorem first_of_nodup (hnodup : (batch.methods.toList.map CompiledMethod.id).Nodup)
    (hc : batch.methods[i]? = some c) : First batch c.id i c := by
  refine ⟨hc, rfl, fun j hj c' hc' hid => ?_⟩
  have hi : (batch.methods.toList.map CompiledMethod.id)[i]? = some c.id := by
    rw [List.getElem?_map, Array.getElem?_toList, hc, Option.map_some]
  have hj' : (batch.methods.toList.map CompiledMethod.id)[j]? = some c.id := by
    rw [List.getElem?_map, Array.getElem?_toList, hc', Option.map_some, hid]
  have := (List.getElem?_inj (List.getElem?_eq_some_iff.mp hi).1 hnodup).mp (hi.trans hj'.symm)
  omega

/-- A relocation that covers a method targets it. -/
theorem Covers.target_eq (h : Covers batch r i position) (hc : batch.methods[i]? = some c) :
    r.target = c.id := by
  obtain ⟨⟨c', hfirst⟩, -⟩ := h
  rw [← hfirst.same, Option.some.inj (hfirst.found.symm.trans hc)]

/-- Where sites are apart, each keeps the address that was written to it. -/
theorem Filled.byte_of_site {j : Nat} (h : Filled ctx batch batch.relocations i c c')
    (hc : First batch r.target i c)
    (hapart :
      batch.relocations.Pairwise fun r r' => r.target = r'.target → r.offset + 8 ≤ r'.offset)
    (hr : r ∈ batch.relocations) (hsource : AddressOf ctx batch r.source address) (hj : j < 8) :
    c'.code.byte (r.offset + j) = addressByte address j := by
  have hcovers : Covers batch r i (r.offset + j) := ⟨⟨c, hc⟩, by omega, by omega⟩
  have hbytes := h.bytes (r.offset + j)
  generalize c'.code.byte (r.offset + j) = byte at hbytes
  cases hbytes with
  | kept none => exact absurd hcovers (none r hr)
  | @last before after r' address' parts covers later source =>
      rw [parts] at hr hapart
      rcases List.mem_append.mp hr with hr | hr
      · have := (List.pairwise_append.mp hapart).2.2 r hr r' List.mem_cons_self
          (hc.same.symm.trans (covers.target_eq hc.found).symm)
        have := covers.2.1
        omega
      · rcases List.mem_cons.mp hr with rfl | hr
        · rw [source.unique hsource, Nat.add_sub_cancel_left]
        · exact absurd hcovers (later r hr)

/-- A byte outside of all sites is as it was. -/
theorem Filled.byte_of_outside (h : Filled ctx batch batch.relocations i c c')
    (hc : batch.methods[i]? = some c)
    (hout : ∀ r ∈ batch.relocations, r.target = c.id → position < r.offset ∨
      r.offset + 8 ≤ position) :
    c'.code.byte position = c.code.byte position := by
  have hbytes := h.bytes position
  generalize c'.code.byte position = byte at hbytes
  cases hbytes with
  | kept => rfl
  | last parts covers =>
      have := hout _ (by simp [parts]) (covers.target_eq hc)
      have := covers.2
      omega

/-- Linking a batch whose relocations are apart and inside of its code. -/
theorem linkedAs_of_link (hnodup : (batch.methods.toList.map CompiledMethod.id).Nodup)
    (hapart :
      batch.relocations.Pairwise fun r r' => r.target = r'.target → r.offset + 8 ≤ r'.offset)
    (hready : ∀ r ∈ batch.relocations, Ready batch r) (h : link ctx batch = (batch', none)) :
    List.Forall₂ (LinkedAs ctx batch) batch.methods.toList batch'.methods.toList := by
  have hfillable : ∀ r ∈ batch.relocations, Fillable ctx batch r := link_eq_none_iff.mp (by rw [h])
  obtain ⟨patched, hpatched, hlink⟩ := link_of_fillable hfillable
  cases h.symm.trans hlink
  obtain ⟨hsize, hregions⟩ := hpatched.sealCode
  refine List.forall₂_iff_get.mpr ⟨by simpa using hsize.symm, fun i hi hi' => ?_⟩
  simp only [Array.length_toList, List.get_eq_getElem, Array.getElem_toList] at hi hi' ⊢
  have hc := Array.getElem?_eq_getElem hi
  obtain ⟨c', hc', hfilled, hexecutable⟩ := hregions i _ hc
  rw [(Array.getElem?_eq_some_iff.mp hc').2]
  refine ⟨hfilled.toSamePlace, hexecutable,
    fun r hr htarget => ?_, fun _ => hfilled.byte_of_outside hc⟩
  obtain ⟨address, hsource⟩ := (hfillable r hr).source
  have hinside := ((hready r hr).code _ (Array.getElem_mem hi) htarget.symm).2
  have hfirst := first_of_nodup hnodup hc
  rw [← htarget] at hfirst
  refine ⟨address, hsource.entry,
    window_eq (length_littleEndian _ _) (hfilled.size ▸ hinside) fun j hj => ?_⟩
  rw [hfilled.byte_of_site hfirst hapart hr hsource hj, getElem?_littleEndian hj]
  rfl

end SlotJit.Linking

namespace SlotJit.Codegen

open SlotJit.CodeMemory SlotJit.Ir SlotJit.Linking SlotJit.Tables SlotJit.X64

variable {ctx : Context} {natives : Natives} {alloc alloc' : Allocator} {ids : List SymbolId}

/-- New code can be written. -/
theorem Compiles.writable {methods : List CompiledMethod} {relocations : List Relocation}
    (h : Compiles ctx natives alloc ids methods relocations alloc') {compiled : CompiledMethod}
    (hmem : compiled ∈ methods) : compiled.code.executable = false := by
  induction h with
  | nil => cases hmem
  | cons _ compile _ ih =>
      rcases List.mem_cons.mp hmem with rfl | hmem
      · obtain ⟨_, _, region, -, -, hallocates, hwrite, -⟩ := link_of_compileMethod compile
        rw [(Region.frame_of_write hwrite).2.2, hallocates.region]
      · exact ih hmem

/-- A compiled batch is ready for its relocations. -/
theorem Compiles.ready {batch : CompiledBatch} (hctx : ctx.Indexed) (hnodup : ids.Nodup)
    (h : Compiles ctx natives alloc ids batch.methods.toList batch.relocations alloc')
    {r : Relocation} (hr : r ∈ batch.relocations) : Ready batch r := by
  have hids := h.ids
  obtain ⟨hsites, -, -⟩ := h.sites hctx hnodup
  obtain ⟨call, -, method, hfound, compiled, hcompiled, hid, hsite⟩ := exists_of_forall₂ hsites hr
  have htarget : compiled.id = r.target :=
    hid.trans ((hctx.id_of_method? hfound).symm.trans hsite.target.symm)
  refine ⟨⟨compiled, Array.mem_def.mpr hcompiled, htarget⟩, fun c hc hsame => ?_⟩
  cases List.inj_on_of_nodup_map (hids.symm ▸ hnodup) hcompiled (Array.mem_def.mp hc)
    (htarget.trans hsame.symm)
  exact ⟨h.writable hcompiled, hsite.inside⟩

/-- **Relocations are call sites.** Where ids are positions, let the methods of distinct ids be
compiled without a failure. The relocations are for the calls of compiled methods in these methods,
one for each and in order, and each is at the immediate that holds the packed id of its callee in
the finished code. No two of one method share a byte. If linking succeeds, each site holds the entry
of its callee's code, all other bytes are as they were, and all code is executable. -/
theorem relocations_are_call_sites {ctx : Context} (hctx : ctx.Indexed) (natives : Natives)
    (alloc : Allocator) {ids : List SymbolId} (hnodup : ids.Nodup)
    (h : (compileBatch ctx natives alloc ids).failure = none) :
    let batch := (compileBatch ctx natives alloc ids).batch
    batch.methods.toList.map CompiledMethod.id = ids ∧
      List.Forall₂ (SiteIn ctx natives batch.methods.toList) (callsOf ctx ids) batch.relocations ∧
      batch.relocations.Pairwise (fun r r' => r.target = r'.target → r.offset + 8 ≤ r'.offset) ∧
      ∀ linked, link ctx batch = (linked, none) →
        List.Forall₂ (LinkedAs ctx batch) batch.methods.toList linked.methods.toList := by
  intro batch
  have hcompiles := compiles_of_compileBatch h
  have hids := hcompiles.ids
  obtain ⟨hsites, hapart, -⟩ := hcompiles.sites hctx hnodup
  refine ⟨hids, hsites, hapart, fun linked hlink => ?_⟩
  exact linkedAs_of_link (hids.symm ▸ hnodup) hapart
    (fun r hr => hcompiles.ready hctx hnodup hr) hlink

/-- A method that calls itself. -/
def forever : Method :=
  { name := "forever", descriptor := "()V", signature := ⟨[], none⟩, access := .staticFlag,
    id := default, maxLocals := 0, maxStack := 0, bytecode := [0xb8, 0, 1, 0xb1],
    body :=
    { code := [{ kind := .callStatic, args := [.symbol default] }, { kind := .ret none }] } }

/-- The class of `forever`. -/
def foreverOwner : ClassTable := { name := "Main", constants := {}, methods := #[forever] }

/-- All that `forever` sees. -/
def foreverContext : Context :=
    { staged := #[{ index := 0, name := "p", classes := #[foreverOwner] }] }

/-- The code of `forever`. -/
def foreverPieces : List Piece :=
  [.instr (.lea .rax (frameMem 0)),
    .instr (.aluLoad .cmp .qword .rax { base := envReg, disp := 0 }),
    .jump (some .be) 3, .instr .trap, .label 3, .instr (.aluImm .add .qword frameReg 16),
    .instr (.leaRip .rax 16), .instr (.store .qword (frameMem (-16)) .rax), .loadCode forever.id,
    .instr (.jmpReg .rax), .instr (.aluImm .sub .qword frameReg 16),
    .instr (.jmpMem (frameMem (-16)))]

/-- The code of `forever`. -/
theorem bodyPieces_forever :
    bodyPieces ⟨foreverContext, fun _ => none, 0⟩ forever.body.code = .ok foreverPieces := by
  simp only [bodyPieces, instructionPieces, labelAt, contains_branchLabels, forever]
  decide +kernel

/-- The ids of `foreverContext` are positions. -/
theorem indexed_foreverContext : foreverContext.Indexed := Context.indexed_singleton rfl rfl rfl rfl

/-- What compiling `forever` leads to. -/
def foreverCompilation : Compilation :=
  compileBatch foreverContext (fun _ => none) { next := Allocator.codeBase } [forever.id]

/-- `forever` has one call site, which holds its own address once it is linked. -/
theorem relocations_are_call_sites_forever :
    foreverCompilation.failure = none ∧ callsOf foreverContext [forever.id] = [(forever.id, 0)] ∧
      ∃ r linked code, foreverCompilation.batch.relocations = [r] ∧ r.source = forever.id ∧
        link foreverContext foreverCompilation.batch = (linked, none) ∧
        linked.methods.toList = [code] ∧
        code.code.window r.offset 8 = littleEndian 8 Allocator.codeBase.toNat := by
  let alloc : Allocator := { next := Allocator.codeBase }
  have hnodup : [forever.id].Nodup := List.nodup_singleton _
  obtain ⟨compiled, relocations, alloc', hcompile, hbase, -⟩ :=
    @exists_compileMethod foreverContext (fun _ => none) alloc forever.id forever _ rfl
      bodyPieces_forever (by decide) (by decide) rfl (by decide)
      (show Allocator.codeBase.toNat + 2 * mappableSize ≤ addressCount by decide)
  have hfound : foreverContext.method? forever.id = some forever := rfl
  have hcompilation : foreverCompilation = ⟨⟨#[compiled], relocations⟩, none, alloc'⟩ := by
    simp [foreverCompilation, compileBatch, compileBatch.go, hfound, hcompile, alloc]
  have hok : foreverCompilation.failure = none := by rw [hcompilation]
  have hready : ∀ r ∈ foreverCompilation.batch.relocations, Ready foreverCompilation.batch r :=
    fun r hr => (compiles_of_compileBatch hok).ready indexed_foreverContext hnodup hr
  obtain ⟨hids, hsites, -, hlinked⟩ :=
    relocations_are_call_sites indexed_foreverContext (fun _ => none) alloc hnodup hok
  change foreverCompilation.batch.methods.toList.map CompiledMethod.id = _ at hids
  change List.Forall₂ (SiteIn _ _ foreverCompilation.batch.methods.toList) _
    foreverCompilation.batch.relocations at hsites
  rw [hcompilation] at hids hsites hready ⊢
  have hid : compiled.id = forever.id := List.singleton_inj.mp hids
  obtain ⟨r, rest, ⟨method, hmethod, _, -, -, hsite⟩, hrest, rfl⟩ :=
    List.forall₂_cons_left_iff.mp hsites
  cases hrest
  cases hmethod
  have hsource : r.source = forever.id := by
    obtain ⟨inst, hinst, -, hhead⟩ := hsite.call
    cases hinst
    exact Operand.symbol.inj (Option.some.inj hhead.symm)
  have haddress : codeAddress? foreverContext ⟨#[compiled], [r]⟩ r.source =
      some Allocator.codeBase := by
    simp [codeAddress?, CompiledBatch.find?, hsource, hid, hbase, alloc]
  obtain ⟨hlink, -⟩ | ⟨r', hr', hnone, -⟩ := @link_cases foreverContext _ hready
  · have hlink' : link foreverContext ⟨#[compiled], [r]⟩ =
        ((link foreverContext ⟨#[compiled], [r]⟩).1, none) := by rw [← hlink]
    have hlinked' := hlinked (link foreverContext ⟨#[compiled], [r]⟩).1
      (show link foreverContext foreverCompilation.batch = _ by rw [hcompilation]; exact hlink')
    change List.Forall₂ (LinkedAs _ foreverCompilation.batch)
      foreverCompilation.batch.methods.toList _ at hlinked'
    rw [hcompilation] at hlinked'
    obtain ⟨code, others, hcode, hothers, hmethods⟩ := List.forall₂_cons_left_iff.mp hlinked'
    cases hothers
    obtain ⟨address, hentry, hwindow⟩ := hcode.sites r (List.mem_singleton_self r)
      (hsite.target.trans hid.symm)
    refine ⟨rfl, rfl, r, _, code, rfl, hsource, hlink', hmethods, ?_⟩
    rw [hwindow]
    cases hentry with
    | compiled hmem =>
        rw [Array.mem_singleton.mp hmem, hbase]
    | published hnot =>
        exact absurd (hid.trans hsource.symm) (hnot compiled (Array.mem_singleton_self _))
  · cases List.mem_singleton.mp hr'
    cases hnone.symm.trans haddress

end SlotJit.Codegen

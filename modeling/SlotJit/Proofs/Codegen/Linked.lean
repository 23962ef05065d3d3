import SlotJit.Proofs.Codegen.Relocations
import SlotJit.Proofs.Semantics.NativeMachine

/-!
# Linked code in place

Linking writes the addresses of callees over the immediates of the instructions that load them, and
over nothing else. So the pieces of a linked method are in place like those of a compiled one, with
the loads of code addresses filled in (`Piece.fill`).

The regions of a batch stand one after the other, each on pages of its own, so that all of them can
be executed once they are added to the code of the machine (`Stacked.shows`).

## Main results

* `Compiles.unlinked`: the bytes and the relocations of a compiled method.
* `Unlinked.placed_fill`: the code of a linked method.
* `Stacked.shows`: the regions of a batch.
-/

namespace SlotJit.Codegen

open SlotJit.CodeMemory SlotJit.Ir SlotJit.Linking SlotJit.Machine SlotJit.Tables SlotJit.X64

/-! ### Bytes of a region -/

/-- A region has the bytes of an instruction between two offsets. -/
structure BytesAt (region : Region) (start finish : Nat) (i : Instr) : Prop where
  length : finish = start + (encode i).length
  inside : finish ≤ region.size
  byte : ∀ (j : Nat) (b : UInt8), (encode i)[j]? = some b → region.byte (start + j) = b

namespace BytesAt

variable {region region' : Region} {start finish : Nat} {i i' : Instr}

/-- Where a region has the bytes of an instruction, the instruction is read. -/
theorem readsAt (h : BytesAt region start finish i) : ReadsAt region start finish i := by
  have hlength : (encode i).length ≤ longestInstr := length_encode_le i
  have hinside := h.inside
  have hfinish := h.length
  have htake : (region.window start longestInstr).take (encode i).length = encode i := by
    refine List.ext_getElem? fun j => ?_
    rw [Region.window, List.getElem?_take, List.getElem?_map]
    split
    · rename_i hj
      have hb := List.getElem?_eq_getElem hj
      rw [List.getElem?_range (by omega), Option.map_some, hb, h.byte j _ hb]
    · exact (List.getElem?_eq_none (by omega)).symm
  obtain ⟨rest, hrest⟩ : ∃ rest, region.window start longestInstr = encode i ++ rest :=
    ⟨_, by rw [← htake, List.take_append_drop]⟩
  refine ⟨?_, hfinish⟩
  unfold instrAt?
  simp only [hrest, decode_encode, List.length_append, Nat.add_sub_cancel]

/-- An instruction that is read at an offset is the one whose bytes are there. -/
theorem eq_of_readsAt (h : BytesAt region start finish i)
    (hreads : ReadsAt region start finish i') : i' = i := by
  have heq := hreads.1.symm.trans h.readsAt.1
  exact (Prod.mk.inj (Option.some.inj heq)).1

/-- A region with the same bytes between the offsets. -/
theorem congr (h : BytesAt region start finish i) (hsize : region'.size = region.size)
    (hbyte : ∀ p, start ≤ p → p < finish → region'.byte p = region.byte p) :
    BytesAt region' start finish i := by
  refine ⟨h.length, hsize ▸ h.inside, fun j b hb => ?_⟩
  have hj := (List.getElem?_eq_some_iff.mp hb).1
  have hfinish := h.length
  rw [hbyte _ (Nat.le_add_right _ _) (by omega), h.byte j b hb]

theorem encode_load (value : Int64) :
    encode (.movImm64 .rax value) = [0x48, 0xb8] ++ littleEndian 8 value.toUInt64.toNat := rfl

/-- A region with another word as the immediate of a load. -/
theorem withImmediate {value : Int64} {address : UInt64}
    (h : BytesAt region start finish (.movImm64 .rax value)) (hsize : region'.size = region.size)
    (hopcode : ∀ p, start ≤ p → p < start + 2 → region'.byte p = region.byte p)
    (hword : region'.window (start + 2) 8 = littleEndian 8 address.toNat) :
    BytesAt region' start finish (.movImm64 .rax address.toInt64) := by
  refine ⟨h.length, hsize ▸ h.inside, fun j b hb => ?_⟩
  have hfinish : finish = start + 10 := h.length
  have hinside := h.inside
  have hsame : address.toInt64.toUInt64 = address := rfl
  rw [encode_load, hsame] at hb
  by_cases hj : j < 2
  · rw [hopcode _ (Nat.le_add_right _ _) (by omega)]
    refine h.byte j b ?_
    rw [encode_load, List.getElem?_append_left hj]
    rwa [List.getElem?_append_left hj] at hb
  · have hlt := (List.getElem?_eq_some_iff.mp hb).1
    rw [List.length_append, length_littleEndian, List.length_cons, List.length_singleton] at hlt
    rw [List.getElem?_append_right (Nat.le_of_not_lt hj), List.length_cons,
      List.length_singleton, ← hword,
      Region.window, List.getElem?_map, List.getElem?_range (by omega), Option.map_some] at hb
    have hindex : start + 2 + (j - 2) = start + j := by omega
    rw [← hindex]
    exact Option.some.inj hb

end BytesAt

/-! ### Compiled code -/

/-- A piece with the code address of a callee filled in, where there is one. -/
def Piece.fill (address : SymbolId → Option UInt64) : Piece → Piece
  | .loadCode callee =>
    match address callee with
    | some a => .instr (.movImm64 .rax a.toInt64)
    | none => .loadCode callee
  | p => p

/-- A piece that is filled in was a load, or it is as it was. -/
theorem Piece.fill_cases {address : SymbolId → Option UInt64} {p q : Piece}
    (h : p.fill address = q) : (∃ callee a, p = .loadCode callee ∧ address callee = some a ∧
      q = .instr (.movImm64 .rax a.toInt64)) ∨ p = q := by
  cases p with
  | loadCode callee =>
      simp only [Piece.fill] at h
      split at h
      · exact .inl ⟨callee, _, rfl, ‹_›, h.symm⟩
      · exact .inr h
  | instr | jump | label => exact .inr h

/-- The code of a method as it was compiled, with the relocations of its batch. -/
structure Unlinked (target : SymbolId) (pieces : List Piece) (offset : Nat → Nat) (code : Region)
    (relocations : List Relocation) : Prop where
  placed : Placed pieces offset code
  bytes : ∀ (k : Nat) (p : Piece), pieces[k]? = some p → (∀ l, p ≠ .label l) →
    ∃ i, BytesAt code (offset k) (offset (k + 1)) i
  loads : ∀ (k : Nat) (callee : SymbolId), pieces[k]? = some (.loadCode callee) →
    BytesAt code (offset k) (offset (k + 1)) (loadCodeInstr callee) ∧
      ⟨callee, target, offset k + 2⟩ ∈ relocations
  sites : ∀ r ∈ relocations, r.target = target → ∃ k : Nat, pieces[k]? = some (.loadCode r.source) ∧
    r.offset = offset k + 2

theorem mem_loadsIn {pieces : List Piece} {k : Nat} {callee : SymbolId}
    (h : pieces[k]? = some (.loadCode callee)) : (k, callee) ∈ loadsIn pieces := by
  induction pieces generalizing k with
  | nil => cases h
  | cons p rest ih =>
      cases k with
      | zero =>
          cases h
          exact List.mem_cons_self
      | succ k =>
          have hmem :=
            List.mem_map_of_mem (f := fun load : Nat × SymbolId => (load.1 + 1, load.2)) (ih h)
          cases p with
          | loadCode callee' => exact List.mem_cons_of_mem _ hmem
          | instr | jump | label => exact hmem

/-- Where an item was written that has the bytes of an instruction, the region has these bytes. -/
theorem bytesAt_of_linked {pieces : List Piece} {settled : List Item} {a : Assembly}
    (hlinked : Linked (pieces.map Piece.emission) settled a) {region code : Region}
    (hwrite : region.write 0 a.bytes = (code, none)) {k : Nat} {p : Piece} {item : Item} {i : Instr}
    (hp : pieces[k]? = some p) (hitem : settled[k]? = some item)
    (hi : (item.write (labelOffsets settled)).bytes = encode i)
    (hinside : startOf settled (k + 1) ≤ code.size) :
    BytesAt code (startOf settled k) (startOf settled (k + 1)) i := by
  have hemission : (pieces.map Piece.emission)[k]? = some p.emission := by
    rw [List.getElem?_map, hp, Option.map_some]
  obtain ⟨hlength, -⟩ := hlinked.bytes_write hitem hemission
  obtain ⟨rest, hrest⟩ := exists_drop_bytes hlinked hitem
  rw [hi] at hrest hlength
  refine ⟨by rw [startOf_succ hitem, hlength], hinside, fun j b hb => ?_⟩
  have hbyte : a.bytes[startOf settled k + j]? = some b := by
    rw [← List.getElem?_drop, hrest,
      List.getElem?_append_left (List.getElem?_eq_some_iff.mp hb).1, hb]
  have hlt := (List.getElem?_eq_some_iff.mp hbyte).1
  rw [Region.byte_write hwrite, if_pos (by omega), Nat.sub_zero, hbyte, Option.getD_some]

/-- The code of a method that was compiled. -/
theorem unlinked_of_compileMethod {ctx : Context} {natives : Natives} {alloc alloc' : Allocator}
    {id : SymbolId} {method : Method} {compiled : CompiledMethod} {relocations : List Relocation}
    (h : compileMethod ctx natives alloc id method = (alloc', .ok (compiled, relocations))) :
    ∃ pieces offset,
      bodyPieces ⟨ctx, natives, method.body.frameSlots⟩ method.body.code = .ok pieces ∧
      Unlinked method.id pieces offset compiled.code relocations := by
  obtain ⟨pieces, linked, settled, region, hpieces, hlinked, -, hwrite, hplaced, rfl⟩ :=
    exists_of_compileMethod h
  have hinside : ∀ (k : Nat) (p : Piece), pieces[k]? = some p →
      startOf settled (k + 1) ≤ compiled.code.size :=
    fun k p hp => hplaced.offset_le (List.getElem?_eq_some_iff.mp hp).1
  refine ⟨pieces, startOf settled, hpieces, hplaced,
    fun k p hp hlabel => ?_, fun k callee hk => ⟨?_, ?_⟩, fun r hr _ => ?_⟩
  · obtain ⟨item, hitem, hemission⟩ := exists_item_of_piece hlinked hp
    obtain ⟨-, hi⟩ := hlinked.bytes_write hitem hemission
    cases p with
    | label l => exact absurd rfl (hlabel l)
    | instr | jump | loadCode =>
        exact ⟨_, bytesAt_of_linked hlinked hwrite hp hitem hi (hinside k _ hp)⟩
  · obtain ⟨item, hitem, hemission⟩ := exists_item_of_piece hlinked hk
    obtain ⟨-, hi⟩ := hlinked.bytes_write hitem hemission
    exact bytesAt_of_linked hlinked hwrite hk hitem hi (hinside k _ hk)
  · rw [relocationsOf_linked _ hlinked]
    exact List.mem_map_of_mem
      (f := fun load => (⟨load.2, method.id, startOf settled load.1 + 2⟩ : Relocation))
      (mem_loadsIn hk)
  · rw [relocationsOf_linked _ hlinked] at hr
    obtain ⟨load, hload, rfl⟩ := List.mem_map.mp hr
    exact ⟨load.1, getElem?_of_mem_loadsIn hload, rfl⟩

section Batches

variable {ctx : Context} {natives : Natives} {alloc alloc' : Allocator} {ids : List SymbolId}
  {methods : List CompiledMethod} {relocations : List Relocation}

/-- The code of the methods of a batch, with the relocations of the batch. -/
theorem Compiles.unlinked (hctx : ctx.Indexed) (hnodup : ids.Nodup)
    (h : Compiles ctx natives alloc ids methods relocations alloc') {compiled : CompiledMethod}
    (hmem : compiled ∈ methods) :
    ∃ method pieces offset, ctx.method? compiled.id = some method ∧
      bodyPieces ⟨ctx, natives, method.body.frameSlots⟩ method.body.code = .ok pieces ∧
      Unlinked compiled.id pieces offset compiled.code relocations := by
  induction h with
  | nil => cases hmem
  | @cons first second last id ids method head rest own others found compile tail ih =>
      obtain ⟨hnew, hnodup⟩ := List.nodup_cons.mp hnodup
      obtain ⟨pieces, offset, hpieces, hown⟩ := unlinked_of_compileMethod compile
      have hid := hctx.id_of_method? found
      have hhead := id_of_compileMethod compile
      have htarget : ∀ r ∈ own, r.target = id := fun r hr => by
        obtain ⟨i, -, hsite⟩ := exists_of_forall₂ (sites_of_compileMethod hctx compile).1 hr
        exact hsite.target.trans hid
      rcases List.mem_cons.mp hmem with rfl | hmem
      · -- The relocations of the other methods are for others.
        rw [hid, ← hhead] at hown
        refine ⟨method, pieces, offset, hhead.symm ▸ found, hpieces, hown.placed, hown.bytes,
          fun k callee hk => ?_, fun r hr hr' => ?_⟩
        · obtain ⟨hbytes, hsite⟩ := hown.loads k callee hk
          exact ⟨hbytes, List.mem_append_left _ hsite⟩
        · rcases List.mem_append.mp hr with hr | hr
          · exact hown.sites r hr hr'
          · exact absurd ((tail.sites hctx hnodup).2.2 r hr) (hr' ▸ hhead ▸ hnew)
      · obtain ⟨method', pieces, offset, hfound, hpieces, hrest⟩ := ih hnodup hmem
        refine ⟨method', pieces, offset, hfound, hpieces, hrest.placed, hrest.bytes,
          fun k callee hk => ?_, fun r hr hr' => ?_⟩
        · obtain ⟨hbytes, hsite⟩ := hrest.loads k callee hk
          exact ⟨hbytes, List.mem_append_right _ hsite⟩
        · rcases List.mem_append.mp hr with hr | hr
          · have hcompiled : compiled.id ∈ ids := by
              rw [← tail.ids]
              exact List.mem_map_of_mem hmem
            exact absurd hcompiled (hr' ▸ htarget r hr ▸ hnew)
          · exact hrest.sites r hr hr'

end Batches

/-! ### Filling in addresses -/

namespace Unlinked

variable {target : SymbolId} {pieces : List Piece} {offset : Nat → Nat} {code : Region}
  {relocations : List Relocation}

/-- Pieces at different places do not share bytes. -/
theorem apart (h : Unlinked target pieces offset code relocations) {j k : Nat}
    (hj : j < pieces.length) (hk : k < pieces.length) (hne : j ≠ k) : offset (j + 1) ≤ offset k ∨
      offset (k + 1) ≤ offset j := by
  rcases Nat.lt_or_gt_of_ne hne with hlt | hlt
  · obtain ⟨n, rfl⟩ := Nat.exists_eq_add_of_lt hlt
    have hle := h.placed.offset_add (k := j + 1) (n := n) (by omega)
    rw [Nat.add_right_comm] at hle
    exact .inl hle
  · obtain ⟨n, rfl⟩ := Nat.exists_eq_add_of_lt hlt
    have hle := h.placed.offset_add (k := k + 1) (n := n) (by omega)
    rw [Nat.add_right_comm] at hle
    exact .inr hle

/-- The bytes of a piece, but for the immediate if it is a load, are in no relocation. -/
theorem outside (h : Unlinked target pieces offset code relocations) {k : Nat} {p : Piece}
    (hp : pieces[k]? = some p) {position : Nat} (hlow : offset k ≤ position)
    (hhigh : position < offset (k + 1))
    (hload : ∀ callee, p = .loadCode callee → position < offset k + 2) :
    ∀ r ∈ relocations, r.target = target → position < r.offset ∨ r.offset + 8 ≤ position := by
  intro r hr htarget
  obtain ⟨j, hj, hoffset⟩ := h.sites r hr htarget
  have hlength : offset (j + 1) = offset j + 10 := (h.loads j _ hj).1.length
  by_cases hjk : j = k
  · subst hjk
    have := hload r.source (Option.some.inj (hp.symm.trans hj))
    omega
  · have := h.apart (List.getElem?_eq_some_iff.mp hj).1 (List.getElem?_eq_some_iff.mp hp).1 hjk
    omega

/-- A piece of the code with addresses filled in. -/
theorem getElem?_fill {address : SymbolId → Option UInt64} {k : Nat} {q : Piece}
    (hq : (pieces.map (Piece.fill address))[k]? = some q) :
    (∃ callee a, pieces[k]? = some (.loadCode callee) ∧ address callee = some a ∧
      q = .instr (.movImm64 .rax a.toInt64)) ∨ pieces[k]? = some q := by
  rw [List.getElem?_map] at hq
  obtain ⟨p, hp, hfill⟩ := Option.map_eq_some_iff.mp hq
  rcases Piece.fill_cases hfill with ⟨callee, a, rfl, ha, rfl⟩ | rfl
  · exact .inl ⟨callee, a, hp, ha, rfl⟩
  · exact .inr hp

variable {ctx : Context} {batch : CompiledBatch} {c c' : CompiledMethod}

/-- Linking keeps what is read at a piece that is no load. -/
theorem readsAt_of_linkedAs (h : Unlinked c.id pieces offset c.code batch.relocations)
    (hlinked : LinkedAs ctx batch c c') {k : Nat} {p : Piece} (hp : pieces[k]? = some p)
    (hlabel : ∀ l, p ≠ .label l) (hload : ∀ callee, p ≠ .loadCode callee) {i : Instr}
    (hreads : ReadsAt c.code (offset k) (offset (k + 1)) i) :
    ReadsAt c'.code (offset k) (offset (k + 1)) i := by
  obtain ⟨i', hbytes⟩ := h.bytes k p hp hlabel
  cases hbytes.eq_of_readsAt hreads
  refine (hbytes.congr hlinked.place.size fun position hlow hhigh => ?_).readsAt
  exact hlinked.kept position (h.outside hp hlow hhigh fun callee heq => absurd heq (hload callee))

/-- Linking fills in loads. -/
theorem exists_address_of_linkedAs (h : Unlinked c.id pieces offset c.code batch.relocations)
    (hlinked : LinkedAs ctx batch c c') {k : Nat} {callee : SymbolId}
    (hk : pieces[k]? = some (.loadCode callee)) : ∃ a, Entry ctx batch callee a ∧
      ReadsAt c'.code (offset k) (offset (k + 1)) (.movImm64 .rax a.toInt64) := by
  obtain ⟨hbytes, hsite⟩ := h.loads k callee hk
  obtain ⟨a, hentry, hwindow⟩ := hlinked.sites _ hsite rfl
  have hlength : offset (k + 1) = offset k + 10 := hbytes.length
  refine ⟨a, hentry,
    (hbytes.withImmediate hlinked.place.size (fun position hlow hhigh => ?_) hwindow).readsAt⟩
  exact hlinked.kept position (h.outside hk hlow (by omega) fun _ _ => hhigh)

/-- The code of a linked method is in place with all addresses filled in. -/
theorem placed_fill (h : Unlinked c.id pieces offset c.code batch.relocations)
    (hlinked : LinkedAs ctx batch c c') {address : SymbolId → Option UInt64}
    (haddress : ∀ id a, Entry ctx batch id a → address id = some a) :
    Placed (pieces.map (Piece.fill address)) offset c'.code ∧
      ∀ callee, .loadCode callee ∈ pieces → (address callee).isSome := by
  have hsize := hlinked.place.size
  have hlength : (pieces.map (Piece.fill address)).length = pieces.length := List.length_map ..
  refine ⟨⟨h.placed.first, ?_, hsize ▸ h.placed.mappable,
    fun k hk => ?_, fun k id hk => ?_, fun k i hk => ?_,
    fun k cond label j hk hj => ?_, fun k cond label hk => ?_⟩, fun callee hmem => ?_⟩
  · rw [hlength, h.placed.last, hsize]
  · exact h.placed.next k (hlength ▸ hk)
  · obtain ⟨_, _, _, _, hq⟩ | hk := getElem?_fill hk
    · cases hq
    · exact h.placed.label k id hk
  · obtain ⟨callee, a, hload, ha, hq⟩ | hk := getElem?_fill hk
    · cases hq
      obtain ⟨a', hentry, hreads⟩ := h.exists_address_of_linkedAs hlinked hload
      cases Option.some.inj (ha.symm.trans (haddress callee a' hentry))
      exact hreads
    · exact h.readsAt_of_linkedAs hlinked hk (fun _ => Piece.noConfusion)
        (fun _ => Piece.noConfusion) (h.placed.instr k i hk)
  · obtain ⟨_, _, _, _, hq⟩ | hk := getElem?_fill hk
    · cases hq
    obtain ⟨_, _, _, _, hq⟩ | hj := getElem?_fill hj
    · cases hq
    obtain ⟨i, hreads, hjumps⟩ := h.placed.jump k cond label j hk hj
    exact ⟨i, h.readsAt_of_linkedAs hlinked hk (fun _ => Piece.noConfusion)
      (fun _ => Piece.noConfusion) hreads, hjumps⟩
  · obtain ⟨_, _, _, _, hq⟩ | hk := getElem?_fill hk
    · cases hq
    obtain ⟨j, hj⟩ := h.placed.bound k cond label hk
    exact ⟨j, by rw [List.getElem?_map, hj]; rfl⟩
  · obtain ⟨k, hk⟩ := List.mem_iff_getElem?.mp hmem
    obtain ⟨a, hentry, -⟩ := h.exists_address_of_linkedAs hlinked hk
    rw [haddress callee a hentry]
    rfl

end Unlinked

/-! ### The regions of a batch -/

/-- Regions stand one after the other from an address to another, each on pages of its own. -/
inductive Stacked : Nat → List Region → Nat → Prop where
  | nil (start : Nat) : Stacked start [] start
  | cons {start finish : Nat} {region : Region} {rest : List Region}
      (base : region.base.toNat = start) (fits : start + pageAligned region.size < addressCount)
      (tail : Stacked (start + pageAligned region.size) rest finish) :
      Stacked start (region :: rest) finish

/-- The regions of compiled methods stand one after the other. -/
theorem Compiles.stacked {ctx : Context} {natives : Natives} {alloc alloc' : Allocator}
    {ids : List SymbolId} {methods : List CompiledMethod} {relocations : List Relocation}
    (h : Compiles ctx natives alloc ids methods relocations alloc') :
    Stacked alloc.next.toNat (methods.map CompiledMethod.code) alloc'.next.toNat := by
  induction h with
  | nil => exact .nil _
  | cons _ compile _ ih =>
      obtain ⟨_, linked, region, -, -, ⟨hregion, -, -, hnext, hfits, -⟩, hwrite, -⟩ :=
        link_of_compileMethod compile
      obtain ⟨hbase, hsize, -⟩ := Region.frame_of_write hwrite
      rw [hregion] at hbase hsize
      rw [hnext] at ih
      rw [List.map_cons]
      exact .cons (congrArg UInt64.toNat hbase) (hsize.symm ▸ hfits) (hsize.symm ▸ ih)

namespace Stacked

variable {start finish : Nat} {regions : List Region}

/-- Where regions stand is a matter of their bases and sizes. -/
theorem congr {regions' : List Region} (h : Stacked start regions finish)
    (hmap : regions'.map (fun r => (r.base, r.size)) = regions.map fun r => (r.base, r.size)) :
    Stacked start regions' finish := by
  induction h generalizing regions' with
  | nil =>
      rw [List.map_nil, List.map_eq_nil_iff] at hmap
      exact hmap ▸ .nil _
  | cons base fits tail ih =>
      cases regions' with
      | nil => cases hmap
      | cons region' rest' =>
          obtain ⟨hhead, htail⟩ := List.cons.inj hmap
          obtain ⟨hbase, hsize⟩ := Prod.mk.inj hhead
          exact .cons (hbase ▸ base) (hsize ▸ fits) (hsize ▸ ih htail)

/-- Regions that start at a page end at a page. -/
theorem le_and_aligned (h : Stacked start regions finish) (hstart : start % pageSize = 0) :
    start ≤ finish ∧ finish % pageSize = 0 := by
  induction h with
  | nil => exact ⟨Nat.le_refl _, hstart⟩
  | @cons _ _ region _ _ _ _ ih =>
      have haligned : pageAligned region.size % pageSize = 0 := by
        unfold pageAligned
        exact Nat.mul_mod_left _ _
      obtain ⟨hle, hfinish⟩ := ih (by rw [Nat.add_mod, hstart, haligned]; rfl)
      exact ⟨by omega, hfinish⟩

theorem size_le_pageAligned (size : Nat) : size ≤ pageAligned size := by
  unfold pageAligned pageSize
  omega

/-- Regions above others are added to the code of the machine: all can be executed. -/
theorem shows (h : Stacked start regions finish) (hstart : start % pageSize = 0) (code : CodeMap) :
    (∀ region, code.Shows region → region.base.toNat + region.size ≤ start →
      (regions.foldl CodeMap.insert code).Shows region) ∧
    ∀ region ∈ regions, (regions.foldl CodeMap.insert code).Shows region ∧
      start ≤ region.base.toNat ∧ region.base.toNat + region.size ≤ finish := by
  induction h generalizing code with
  | nil => exact ⟨fun _ hshows _ => hshows, fun _ hmem => absurd hmem List.not_mem_nil⟩
  | @cons start finish region rest base fits tail ih =>
      have hle := size_le_pageAligned region.size
      obtain ⟨-, hstart'⟩ := (Stacked.cons base fits (.nil _)).le_and_aligned hstart
      obtain ⟨hfinish, -⟩ := tail.le_and_aligned hstart'
      have hpage : region.base.toNat % pageSize = 0 := base ▸ hstart
      obtain ⟨hold, hnew⟩ := ih hstart' (code.insert region)
      refine ⟨fun r hr hbelow => hold r (hr.insert hpage (by omega)) (by omega), fun r hr => ?_⟩
      rcases List.mem_cons.mp hr with rfl | hr
      · exact ⟨hold r (shows_insert code hpage (by omega)) (by omega), by omega, by omega⟩
      · obtain ⟨hshows, hlow, hhigh⟩ := hnew r hr
        exact ⟨hshows, by omega, hhigh⟩

/-- Adding regions adds nothing below them. -/
theorem fetch_below (h : Stacked start regions finish) (hstart : start % pageSize = 0)
    (code : CodeMap) {address : Word} (hbelow : address.toNat < start) :
    (regions.foldl CodeMap.insert code).fetch address = code.fetch address := by
  induction h generalizing code with
  | nil => rfl
  | @cons start finish region rest base fits tail ih =>
      obtain ⟨-, hstart'⟩ := (Stacked.cons base fits (.nil _)).le_and_aligned hstart
      have hpage : address.toNat / pageSize < region.base.toNat / pageSize := by
        rw [base]
        unfold pageSize at hstart ⊢
        omega
      rw [List.foldl_cons, ih hstart' _ (by omega)]
      unfold CodeMap.fetch CodeMap.insert
      rw [getElem?_foldl_insert_of_lt _ hpage]

end Stacked

end SlotJit.Codegen

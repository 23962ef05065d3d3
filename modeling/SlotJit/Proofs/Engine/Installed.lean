import SlotJit.Machine.Run
import SlotJit.Proofs.Codegen.Linked
import SlotJit.Proofs.Engine.Splitting

/-!
# Installed code

The machine executes the entry stub and the code of all published methods. The code of a method is
what its body was compiled to, with the entries of the methods that it calls filled in; later loads
put their code above it and change nothing of it. No code is at the address where the caller of
compiled code waits.

## Main results

* `Installed`: the code of a published method.
* `laid`: what holds for all code of a machine that served requests.
-/

namespace SlotJit.Engine.Vm

open SlotJit.CodeMemory SlotJit.Codegen SlotJit.Ir SlotJit.Linking SlotJit.Lowering SlotJit.Machine
  SlotJit.Tables

variable {vm vm' : Vm} {batch : List PackageDecl} {staged : Context}
  {bodies : List (SymbolId × Body)} {linked : CompiledBatch} {id : SymbolId} {method : Method}
  {region : Region}

/-- Where the code of a published method starts. -/
def codeAddress? (vm : Vm) (id : SymbolId) : Option UInt64 :=
  ((vm.method? id).bind Method.code).map Region.base

/-- The code of a published method. Its body was lowered and has these pieces, which are in place in
a region that the machine executes, with the entries of callees filled in. The methods that the code
was made for are published. -/
structure Installed (vm : Vm) (site : Codegen.Site) (method : Method) (region : Region)
    (pieces : List Piece) (start offset : Nat → Nat) : Prop where
  lowered : ∃ ctx owner declared, Lowering.lower ctx owner declared = .ok method.body
  body : bodyPieces site method.body.code = .ok pieces
  frameSlots : site.frameSlots = method.body.frameSlots
  blocks : Blocks site (branchLabels method.body.code) 0 method.body.code pieces start
  placed : Placed (pieces.map (Piece.fill vm.codeAddress?)) offset region
  linked : ∀ callee, .loadCode callee ∈ pieces → (vm.codeAddress? callee).isSome
  shows : vm.code.Shows region
  indexed : site.context.Indexed
  known : site.context.Precedes vm.context

/-- All code of a machine. Code regions start at the code base and end below the next one. -/
structure Laid (vm : Vm) : Prop where
  aligned : vm.nextCode.toNat % pageSize = 0
  above : Allocator.codeBase.toNat ≤ vm.nextCode.toNat
  stub : vm.code.Shows stubRegion
  caller : vm.code.fetch callerAddress = none
  methods : ∀ id method region, vm.method? id = some method → method.code = some region →
    region.base.toNat + region.size ≤ vm.nextCode.toNat ∧
      ∃ site pieces start offset, Installed vm site method region pieces start offset

/-! ### Loading -/

/-- The methods of the packages that were published before a load. -/
theorem Loads.method?_of_lt (hvm : vm.context.Indexed) (h : vm.Loads batch staged bodies linked vm')
    (hid : id.package.val < vm.packages.size) : vm'.method? id = vm.method? id := by
  have hpackage : vm'.context.package? id.package.val = vm.context.package? id.package.val := by
    rw [Context.package?_eq, Context.package?_eq, Vm.context, Vm.context, Array.append_empty,
      Array.append_empty, h.packages hvm, Array.getElem?_append_left hid]
  rw [Vm.method?, Vm.method?, Context.method?, Context.method?, methodAt?, methodAt?, hpackage]

theorem Loads.precedes (hvm : vm.context.Indexed) (h : vm.Loads batch staged bodies linked vm') :
    vm.context.Precedes vm'.context := by
  obtain ⟨-, hpublished⟩ := h.indexed hvm
  rw [Context.Precedes, h.declaredPackages hvm, Context.declaredPackages, Context.declaredPackages,
    hpublished, Vm.context, Array.append_empty, Array.toList_append, List.map_append]
  exact List.prefix_append _ _

/-- A load keeps the code addresses that are known. -/
theorem Loads.codeAddress?_eq (hvm : vm.context.Indexed)
    (h : vm.Loads batch staged bodies linked vm')
    (hid : (vm.codeAddress? id).isSome) : vm'.codeAddress? id = vm.codeAddress? id := by
  cases hm : vm.method? id with
  | none =>
      rw [codeAddress?, hm] at hid
      cases hid
  | some m => rw [codeAddress?, codeAddress?, hm, h.method?_of_published hvm hm]

/-- What is filled in stays as it is where all addresses are known. -/
theorem map_fill_congr {pieces : List Piece} {address address' : SymbolId → Option UInt64}
    (h : ∀ callee, .loadCode callee ∈ pieces → address' callee = address callee) :
    pieces.map (Piece.fill address') = pieces.map (Piece.fill address) := by
  refine List.map_congr_left fun p hp => ?_
  cases p with
  | loadCode callee => rw [Piece.fill, Piece.fill, h callee hp]
  | instr | jump | label => rfl

/-- Code stays installed after a load, as long as it can be executed. -/
theorem Installed.of_loads {site : Codegen.Site} {pieces : List Piece} {start offset : Nat → Nat}
    (hinstalled : Installed vm site method region pieces start offset) (hvm : vm.context.Indexed)
    (h : vm.Loads batch staged bodies linked vm') (hshows : vm'.code.Shows region) :
    Installed vm' site method region pieces start offset := by
  have haddress : ∀ callee, .loadCode callee ∈ pieces →
      vm'.codeAddress? callee = vm.codeAddress? callee :=
    fun callee hmem => h.codeAddress?_eq hvm (hinstalled.linked callee hmem)
  refine ⟨hinstalled.lowered, hinstalled.body, hinstalled.frameSlots, hinstalled.blocks, ?_,
    ?_, hshows, hinstalled.indexed, List.IsPrefix.trans hinstalled.known (h.precedes hvm)⟩
  · rw [map_fill_congr haddress]
    exact hinstalled.placed
  · intro callee hmem
    rw [haddress callee hmem]
    exact hinstalled.linked callee hmem

/-- The code that a load adds. -/
theorem Loads.regions (hprepared : Prepared staged bodies)
    (h : vm.Loads batch staged bodies linked vm') :
    Stacked vm.nextCode.toNat (linked.methods.toList.map CompiledMethod.code) vm'.nextCode.toNat ∧
      vm'.code = (linked.methods.toList.map CompiledMethod.code).foldl CodeMap.insert vm.code := by
  obtain ⟨compiled, relocations, alloc, hcompiles, hlinked, rfl⟩ := h.exists_linkedAs hprepared
  refine ⟨hcompiles.stacked.congr ?_, ?_⟩
  · rw [List.map_map, List.map_map, ← List.forall₂_eq_eq_eq, List.forall₂_map_left_iff,
      List.forall₂_map_right_iff]
    exact hlinked.flip.imp fun c c' hlinkedAs => by
      simp only [Function.comp_apply, hlinkedAs.place.base, hlinkedAs.place.size]
  · rw [List.foldl_map, publish, Array.foldl_toList]

/-- The code of a method of the batch is installed by its load. -/
theorem Loads.installed (hprepared : Prepared staged bodies) (hvm : vm.context.Indexed)
    (h : vm.Loads batch staged bodies linked vm') {p : Package} {owner : ClassTable} {m : Method}
    (howns : Owns staged p owner m) (hcode : (finish bodies linked m).code = some region)
    (hshows : ∀ c ∈ linked.methods, vm'.code.Shows c.code) :
    (∃ c ∈ linked.methods, c.code = region) ∧ ∃ site pieces start offset,
      Installed vm' site (finish bodies linked m) region pieces start offset := by
  obtain ⟨compiled, relocations, alloc, hcompiles, hlinked, -⟩ := h.exists_linkedAs hprepared
  obtain ⟨body, hbody, -, -⟩ := exists_body hprepared.indexed hprepared.lowered howns
  obtain ⟨code, hfilled, hsome, hnone⟩ :=
    exists_code hprepared.indexed hprepared.lowered h.ids howns body
  have hfinish : finish bodies linked m = { m with body, code } := by
    rw [finish, hbody, hfilled]
  have hcompiled : m.isCompiled = true := by
    by_contra hnot
    rw [hfinish] at hcode
    have hempty := hprepared.empty p howns.package owner howns.classTable m howns.method
    cases hcode.symm.trans ((hnone (Bool.eq_false_iff.mpr hnot)).trans hempty)
  obtain ⟨c', hc', hid', rfl⟩ := hsome hcompiled
  rw [hfinish] at hcode
  cases Option.some.inj hcode
  obtain ⟨fresh, hfresh, hlinkedAs⟩ := exists_of_forall₂ hlinked (Array.mem_def.mp hc')
  obtain ⟨method, pieces, offset, hfound, hpieces, hunlinked⟩ :=
    hcompiles.unlinked hprepared.indexed_withBodies hprepared.nodup hfresh
  have hmethod : method = { m with body } := by
    obtain ⟨hstaged, hm⟩ := howns.method? hprepared.indexed
    rw [← hlinkedAs.place.id, hid', withBodies_eq_mapStaged hprepared.indexed,
      Context.method?_mapStaged, if_neg hstaged, hm, Option.map_some, hbody] at hfound
    exact (Option.some.inj hfound).symm
  have haddress : ∀ id a, Entry (withBodies staged bodies) ⟨compiled.toArray, relocations⟩ id a →
      vm'.codeAddress? id = some a := by
    intro id a hentry
    obtain ⟨callee, target, hcallee, htarget, rfl⟩ :=
      h.exists_code_of_entry hprepared hvm hlinked hentry
    simp [codeAddress?, hcallee, htarget]
  obtain ⟨hplaced, hall⟩ := hunlinked.placed_fill hlinkedAs haddress
  obtain ⟨start, hblocks⟩ := exists_blocks_of_bodyPieces hpieces
  have hbodyEq : method.body = (finish bodies linked m).body := by rw [hmethod, hfinish]
  rw [hbodyEq] at hpieces hblocks
  refine ⟨⟨c', hc', rfl⟩, _, pieces, start, offset,
    ⟨staged, owner, m, (h.finishes hvm howns).lowered hcompiled⟩, hpieces, rfl, hblocks,
    hplaced, hall,
    hshows c' hc', hprepared.indexed_withBodies, ?_⟩
  rw [Context.Precedes, hprepared.declaredPackages, h.declaredPackages hvm]

/-- All code of a machine after a load. -/
theorem Laid.load (hlaid : vm.Laid) (hprepared : Prepared staged bodies) (hvm : vm.context.Indexed)
    (h : vm.Loads batch staged bodies linked vm') : vm'.Laid := by
  obtain ⟨hstacked, hcode⟩ := h.regions hprepared
  obtain ⟨hle, haligned⟩ := hstacked.le_and_aligned hlaid.aligned
  obtain ⟨hold, hnew⟩ := hstacked.shows hlaid.aligned vm.code
  rw [← hcode] at hold hnew
  have habove := hlaid.above
  refine ⟨haligned, Nat.le_trans habove hle,
    hold _ hlaid.stub (Nat.le_trans (by decide +kernel) habove), ?_,
    fun id method region hm hregion => ?_⟩
  · rw [hcode, hstacked.fetch_below hlaid.aligned _ (Nat.lt_of_lt_of_le (by decide) habove),
      hlaid.caller]
  · have hshows : ∀ c ∈ linked.methods, vm'.code.Shows c.code := fun c hc =>
      (hnew c.code (List.mem_map_of_mem (Array.mem_def.mp hc))).1
    by_cases hlt : id.package.val < vm.packages.size
    · rw [h.method?_of_lt hvm hlt] at hm
      obtain ⟨hend, site, pieces, start, offset, hinstalled⟩ :=
        hlaid.methods id method region hm hregion
      exact ⟨Nat.le_trans hend hle, site, pieces, start, offset,
        hinstalled.of_loads hvm h (hold region hinstalled.shows hend)⟩
    · rw [h.method?_of_staged hvm hlt] at hm
      obtain ⟨m, hstaged, rfl⟩ := Option.map_eq_some_iff.mp hm
      obtain ⟨p, owner, howns⟩ := exists_owns ((h.indexed hvm).2 ▸ hlt) hstaged
      obtain ⟨⟨c, hc, rfl⟩, hinstalled⟩ := h.installed hprepared hvm howns hregion hshows
      exact ⟨(hnew c.code (List.mem_map_of_mem (Array.mem_def.mp hc))).2.2, hinstalled⟩

/-- All code of a machine that served requests. -/
theorem laid (config : Config) (requests : List Request) : (serveAll config requests).Laid := by
  induction requests using List.reverseRecOn with
  | nil =>
      have haligned : Allocator.codeBase.toNat % pageSize = 0 := by decide
      refine ⟨haligned, Nat.le_refl _, shows_insert {} (by decide) (by decide +kernel), ?_,
        fun id method region hm => ?_⟩
      · have hbelow : callerAddress.toNat / pageSize < stubRegion.base.toNat / pageSize := by decide
        show (CodeMap.insert {} stubRegion).fetch callerAddress = none
        unfold CodeMap.fetch CodeMap.insert
        rw [getElem?_foldl_insert_of_lt _ hbelow]
        simp
      · simp [serveAll, Vm.method?, Context.method?, methodAt?, Vm.context,
          Context.package?_eq] at hm
  | append_singleton requests r ih =>
      rw [serveAll_concat]
      rcases r with ⟨name, address⟩ | batch
      · refine ⟨ih.aligned, ih.above, ih.stub, ih.caller, fun id method region hm hregion => ?_⟩
        obtain ⟨hend, site, pieces, start, offset, hi⟩ := ih.methods id method region hm hregion
        exact ⟨hend, site, pieces, start, offset, hi.lowered, hi.body, hi.frameSlots, hi.blocks,
          hi.placed, hi.linked, hi.shows, hi.indexed, hi.known⟩
      · rcases hload : (serveAll config requests).load batch with ⟨vm', _ | e⟩
        · obtain ⟨staged, bodies, linked, hloads⟩ := exists_of_load hload
          rw [serve_load_of_none hload]
          exact ih.load (prepared_of_stage config requests hloads.stage hloads.lower)
            (indexed_of_reachable (reachable_serveAll config requests)) hloads
        · rw [serve_load_of_some hload]
          exact ih

end SlotJit.Engine.Vm

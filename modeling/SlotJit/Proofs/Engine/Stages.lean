import SlotJit.Proofs.Engine.Resolution
import SlotJit.Proofs.Engine.Tables

/-!
# The stages of a load agree

A batch goes through four stages: its tables are staged, its methods are lowered, the bodies
compiled, and the code linked. Each stage can refuse its input. What lowering hands on is never
refused by code generation for its form, and what code generation hands on is never refused by
linking for its places. So a batch that was lowered fails later for few reasons, which are all about
what its methods ask for and not about how the stages fit together.

## Main results

* `Prepared.acceptable`: what lowering hands on has the form that code generation asks for.
* `Prepared.codeAddress?_eq_none_iff`: the callees that linking misses are those that are not
  compiled.
* `stages_agree`: why a batch fails after it was lowered.
-/

namespace SlotJit.Engine.Vm

open SlotJit.Bytecode SlotJit.CodeMemory SlotJit.Codegen SlotJit.Ir SlotJit.Linking SlotJit.Lowering
  SlotJit.Tables

variable {staged : Context} {bodies : List (SymbolId × Body)} {id : SymbolId} {body : Body}

/-- The tables of a batch are built and its methods are lowered. Ids are positions, and the methods
that have code are the published ones that are compiled. -/
structure Prepared (staged : Context) (bodies : List (SymbolId × Body)) : Prop where
  indexed : staged.Indexed
  lowered : lowerStaged staged = .ok bodies
  coded : ∀ p ∈ staged.published, ∀ c ∈ p.classes, ∀ m ∈ c.methods, Coded m
  empty : ∀ p ∈ staged.staged, ∀ c ∈ p.classes, ∀ m ∈ c.methods, m.code = none

/-- A batch on a machine that served any requests. -/
theorem prepared_of_stage (config : Config) (requests : List Request) {batch : List PackageDecl}
    (hstage : (serveAll config requests).stage batch = .ok staged)
    (hlower : lowerStaged staged = .ok bodies) : Prepared staged bodies := by
  obtain ⟨hpublished, hbuild⟩ := exists_of_stage hstage
  refine ⟨?_, hlower, ?_, fun p hp c hc m hm => (empty_of_buildAll hbuild hp hc hm).2⟩
  · exact (indexed_stage (indexed_of_reachable (reachable_serveAll config requests)) hstage).1
  · rw [hpublished]
    exact (tabled config requests).coded

/-! ### What lowering hands on -/

/-- Joined lists have no repetition if their elements tell which of the lists they are from. -/
theorem nodup_flatMap_of_place {α β : Type} {l : List α} {f : α → List β} (place : β → Nat)
    (first : Nat) (hin : ∀ a ∈ l, (f a).Nodup)
    (hplace : ∀ (i : Nat) (a : α), l[i]? = some a → ∀ b ∈ f a, place b = first + i) :
    (l.flatMap f).Nodup := by
  refine List.nodup_flatMap.mpr ⟨hin, List.pairwise_iff_getElem.mpr ?_⟩
  intro i j hi hj hlt b hb hb'
  have hfirst := hplace i _ (List.getElem?_eq_getElem hi) b hb
  have hsecond := hplace j _ (List.getElem?_eq_getElem hj) b hb'
  omega

/-- The methods of a package that are lowered have different ids, which tell their package. -/
theorem nodup_of_indexed {p : Package} {index : Nat} (hp : p.Indexed index) :
    let ids := p.classes.toList.flatMap fun c =>
      (c.methods.toList.filter Method.isCompiled).map Method.id
    ids.Nodup ∧ ∀ id ∈ ids, id.package.val = index := by
  have hposition : ∀ (i : Nat) (c : ClassTable), p.classes.toList[i]? = some c →
      ∀ (j : Nat) (m : Method), c.methods.toList[j]? = some m →
        m.id.package.val = index ∧ m.id.classIndex.val = i ∧ m.id.member.val = j := by
    intro i c hc j m hm
    rw [Array.getElem?_toList] at hc hm
    exact hp i j c m hc hm
  refine ⟨nodup_flatMap_of_place (fun id => id.classIndex.val) 0 ?_ ?_, ?_⟩
  · intro c hc
    obtain ⟨i, hi⟩ := List.mem_iff_getElem?.mp hc
    refine List.Nodup.sublist (List.filter_sublist.map Method.id) ?_
    refine List.pairwise_map.mpr (List.pairwise_iff_getElem.mpr ?_)
    intro j k hj hk hlt heq
    obtain ⟨-, -, hmember⟩ := hposition i c hi j _ (List.getElem?_eq_getElem hj)
    obtain ⟨-, -, hmember'⟩ := hposition i c hi k _ (List.getElem?_eq_getElem hk)
    rw [heq] at hmember
    omega
  · intro i c hc id hid
    obtain ⟨m, hm, rfl⟩ := List.mem_map.mp hid
    obtain ⟨j, hj⟩ := List.mem_iff_getElem?.mp (List.mem_filter.mp hm).1
    have := (hposition i c hc j m hj).2.1
    omega
  · intro id hid
    obtain ⟨c, hc, hid⟩ := List.mem_flatMap.mp hid
    obtain ⟨m, hm, rfl⟩ := List.mem_map.mp hid
    obtain ⟨i, hi⟩ := List.mem_iff_getElem?.mp hc
    obtain ⟨j, hj⟩ := List.mem_iff_getElem?.mp (List.mem_filter.mp hm).1
    exact (hposition i c hi j m hj).1

/-- What lowering hands on is for different ids. -/
theorem Prepared.nodup (h : Prepared staged bodies) :
    (bodies.map Prod.fst).Nodup := by
  have hids : bodies.map Prod.fst = (stagedOwners staged).map fun owner => owner.2.2.id := by
    rw [← List.forall₂_eq_eq_eq, List.forall₂_map_right_iff, List.forall₂_map_left_iff]
    refine (forall₂_of_mapM h.lowered).flip.imp fun entry owner hlower => ?_
    dsimp only at hlower
    split at hlower
    · cases hlower
      rfl
    · cases hlower
  have howners : (stagedOwners staged).map (fun owner => owner.2.2.id) =
      staged.staged.toList.flatMap fun p => p.classes.toList.flatMap fun c =>
        (c.methods.toList.filter Method.isCompiled).map Method.id := by
    simp [stagedOwners, List.map_flatMap, Function.comp_def]
  rw [hids, howners]
  refine nodup_flatMap_of_place (fun id => id.package.val) staged.published.size ?_ ?_
  · intro p hp
    obtain ⟨i, hi⟩ := List.mem_iff_getElem?.mp hp
    rw [Array.getElem?_toList] at hi
    exact (nodup_of_indexed (h.indexed.staged hi)).1
  · intro i p hp
    rw [Array.getElem?_toList] at hp
    exact (nodup_of_indexed (h.indexed.staged hp)).2

/-- Filling in bodies leaves what is declared. -/
theorem Prepared.declaredPackages (h : Prepared staged bodies) :
    (withBodies staged bodies).declaredPackages = staged.declaredPackages := by
  rw [withBodies_eq_mapStaged h.indexed,
    Context.declaredPackages_mapStaged (declared_fill setBody (fun _ _ => rfl) bodies)]

/-- Filling in bodies changes no declaration. -/
theorem Prepared.precedes (h : Prepared staged bodies) :
    staged.Precedes (withBodies staged bodies) := by
  rw [Context.Precedes, h.declaredPackages]

/-- A staged method is found by its id, which is that of no published one. -/
theorem Owns.method? (hctx : staged.Indexed) {p : Package} {c : ClassTable} {m : Method}
    (h : Owns staged p c m) :
    ¬ m.id.package.val < staged.published.size ∧ staged.method? m.id = some m := by
  obtain ⟨i, hi⟩ := Array.mem_iff_getElem?.mp h.package
  obtain ⟨j, hj⟩ := Array.mem_iff_getElem?.mp h.classTable
  obtain ⟨k, hk⟩ := Array.mem_iff_getElem?.mp h.method
  obtain ⟨hpackage, -, -⟩ := hctx.staged hi j k c m hj hk
  refine ⟨by omega, hctx.method?_id (i := staged.published.size + i) ?_ hj hk⟩
  rw [Context.package?_eq, Array.getElem?_append_right (Nat.le_add_right _ _),
    Nat.add_sub_cancel_left, hi]

/-- Filling in bodies moves no method. -/
theorem Prepared.indexed_withBodies (h : Prepared staged bodies) :
    (withBodies staged bodies).Indexed := by
  have hextends : Extends staged.published staged := ⟨h.indexed, rfl⟩
  exact (hextends.withBodies bodies).1

/-- The method that a body was made for has it. -/
theorem Prepared.exists_method (h : Prepared staged bodies) (hmem : (id, body) ∈ bodies) :
    ∃ m, (withBodies staged bodies).method? id = some m ∧ m.body = body := by
  obtain ⟨p, c, m, howns, hcompiled, rfl, hlower⟩ := exists_of_mem_bodies h.lowered hmem
  obtain ⟨hstaged, hfound⟩ := howns.method? h.indexed
  obtain ⟨body', hfilled, hlower', -⟩ := exists_body h.indexed h.lowered howns
  cases hlower.symm.trans (hlower' hcompiled)
  refine ⟨{ m with body }, ?_, rfl⟩
  rw [withBodies_eq_mapStaged h.indexed, Context.method?_mapStaged, if_neg hstaged, hfound,
    Option.map_some, hfilled]

/-- What lowering hands on has the form that code generation asks for. -/
theorem Prepared.acceptable (h : Prepared staged bodies) (hmem : (id, body) ∈ bodies)
    (natives : Natives) :
    Acceptable ⟨withBodies staged bodies, natives, body.frameSlots⟩ body.code.length body.code := by
  obtain ⟨p, c, m, howns, hcompiled, rfl, hlower⟩ := exists_of_mem_bodies h.lowered hmem
  refine ⟨frameSlots_lt_of_lower hlower, inFrame_of_lower hlower, fun inst hinst => ?_⟩
  rcases formed_of_lower (positioned_of_indexed h.indexed) hlower inst hinst with hformed | hjump
  · exact .inl (hformed.of_precedes h.precedes)
  · exact .inr hjump

/-! ### What code generation hands on -/

/-- The methods that are lowered are the staged ones with bytecode. -/
theorem Prepared.mem_ids_iff (h : Prepared staged bodies) {m : Method}
    (hfound : staged.method? m.id = some m) :
    m.id ∈ bodies.map Prod.fst ↔
      ¬ m.id.package.val < staged.published.size ∧ m.isCompiled = true := by
  constructor
  · intro hmem
    obtain ⟨⟨id, body⟩, hmem, hid⟩ := List.mem_map.mp hmem
    obtain ⟨p, c, m', howns, hcompiled, hid', -⟩ := exists_of_mem_bodies h.lowered hmem
    obtain ⟨hstaged, hfound'⟩ := howns.method? h.indexed
    rw [hid'.trans hid] at hstaged hfound'
    cases hfound.symm.trans hfound'
    exact ⟨hstaged, hcompiled⟩
  · rintro ⟨hstaged, hcompiled⟩
    obtain ⟨p, c, howns⟩ := exists_owns hstaged hfound
    obtain ⟨body, hmem⟩ := exists_mem_bodies h.lowered howns hcompiled
    exact List.mem_map_of_mem hmem

/-- The code of a batch that has none for an id. -/
theorem find?_eq_none_iff (compiled : CompiledBatch) (id : SymbolId) :
    compiled.find? id = none ↔ id ∉ compiled.methods.toList.map CompiledMethod.id := by
  simp [CompiledBatch.find?, Array.find?_eq_none]

/-- A published method that an id finds is in the tables. -/
theorem exists_published {m : Method} (hlt : id.package.val < staged.published.size)
    (h : staged.method? id = some m) : ∃ p ∈ staged.published, ∃ c ∈ p.classes, m ∈ c.methods := by
  obtain ⟨p, hp, h⟩ := Option.bind_eq_some_iff.mp h
  obtain ⟨c, hc, hm⟩ := Option.bind_eq_some_iff.mp h
  rw [Context.package?, if_pos hlt] at hp
  exact ⟨p, Array.mem_of_getElem? hp, c, Array.mem_of_getElem? hc, Array.mem_of_getElem? hm⟩

/-- Linking misses the code of a method exactly if the method is not compiled. -/
theorem Prepared.codeAddress?_eq_none_iff (h : Prepared staged bodies) {compiled : CompiledBatch}
    (hids : compiled.methods.toList.map CompiledMethod.id = bodies.map Prod.fst) {callee : Method}
    (hfound : (withBodies staged bodies).method? callee.id = some callee) :
    codeAddress? (withBodies staged bodies) compiled callee.id = none ↔
      callee.isCompiled = false := by
  -- The method before its body was filled in.
  obtain ⟨m, hm, hcallee⟩ : ∃ m, staged.method? callee.id = some m ∧
      ∃ body, callee = { m with body } := by
    have hfilled := hfound
    rw [withBodies_eq_mapStaged h.indexed, Context.method?_mapStaged] at hfilled
    split at hfilled
    · exact ⟨callee, hfilled, callee.body, rfl⟩
    · obtain ⟨m, hm, rfl⟩ := Option.map_eq_some_iff.mp hfilled
      refine ⟨m, hm, ?_⟩
      rcases fill_cases setBody (fun _ _ => rfl) (fun _ _ _ => rfl) bodies m with
        ⟨hkept, -⟩ | ⟨body, -, hset⟩
      · exact ⟨m.body, hkept⟩
      · exact ⟨body, hset⟩
  obtain ⟨body, rfl⟩ := hcallee
  change staged.method? m.id = some m at hm
  have hmem := h.mem_ids_iff hm
  rw [← hids] at hmem
  change codeAddress? _ _ m.id = none ↔ m.isCompiled = false
  change (withBodies staged bodies).method? m.id = some { m with body } at hfound
  by_cases hin : m.id ∈ compiled.methods.toList.map CompiledMethod.id
  · have hsome : compiled.find? m.id ≠ none := fun hnone => (find?_eq_none_iff _ _).mp hnone hin
    obtain ⟨code, hcode⟩ := Option.ne_none_iff_exists'.mp hsome
    simp [codeAddress?, hcode, (hmem.mp hin).2]
  · have haddress : codeAddress? (withBodies staged bodies) compiled m.id =
        m.code.map (·.base) := by
      rw [codeAddress?, (find?_eq_none_iff _ _).mpr hin, hfound]
      cases m.code <;> rfl
    rw [haddress, Option.map_eq_none_iff]
    by_cases hlt : m.id.package.val < staged.published.size
    · obtain ⟨p, hp, c, hc, hmethod⟩ := exists_published hlt hm
      have hcoded := (h.coded p hp c hc m hmethod).isSome_iff
      rw [← Option.not_isSome_iff_eq_none, hcoded, Bool.not_eq_true]
    · obtain ⟨p, c, howns⟩ := exists_owns hlt hm
      have hcompiled : m.isCompiled ≠ true := fun hcompiled => hin (hmem.mpr ⟨hlt, hcompiled⟩)
      exact iff_of_true (h.empty p howns.package c howns.classTable m howns.method)
        (Bool.not_eq_true _ ▸ hcompiled)

/-- A call of a method that is not compiled. -/
def CallsUncompiled (ctx : Context) (insts : List Inst) : Prop :=
  ∃ inst ∈ insts, inst.kind = .callStatic ∧ ∃ callee, inst.args.head? = some (.symbol callee.id) ∧
    ctx.method? callee.id = some callee ∧ callee.isCompiled = false

/-- The callee of a call that lowering emits is found. -/
theorem exists_callee {site : Codegen.Site} {stop : Nat} {insts : List Inst}
    (hctx : site.context.Indexed) (h : Acceptable site stop insts) {inst : Inst}
    (hinst : inst ∈ insts)
    (hkind : inst.kind = .callStatic) {source : SymbolId}
    (hsource : inst.args.head? = some (.symbol source)) :
    ∃ callee, callee.id = source ∧ site.context.method? source = some callee := by
  rcases h.formed inst hinst with hformed | ⟨target, -, ⟨hjump, -⟩ | ⟨condition, hjump, -⟩⟩
  · rw [hkind] at hformed
    cases hformed with
    | operation op hop =>
        obtain ⟨id, rest, hargs, hcall⟩ := exists_call_of_operation (.inl rfl) hop
        obtain ⟨callee, hfound, -⟩ := Option.map_eq_some_iff.mp hcall
        rw [hargs] at hsource
        cases hsource
        exact ⟨callee, hctx.id_of_method? hfound, hfound⟩
  · rw [hkind] at hjump
    cases hjump
  · rw [hkind] at hjump
    cases hjump

/-- Why a batch that was lowered is not compiled. -/
theorem Prepared.hinders_of_failure (h : Prepared staged bodies) {natives : Natives}
    {alloc : Allocator} {failure : Codegen.Failure}
    (hfailure :
      (compileBatch (withBodies staged bodies) natives alloc (bodies.map Prod.fst)).failure =
      some failure) :
    ∃ m, m.id ∈ bodies.map Prod.fst ∧ (withBodies staged bodies).method? m.id = some m ∧
      failure.method = (withBodies staged bodies).qualifiedName m.id ∧
      (Hinders ⟨withBodies staged bodies, natives, m.body.frameSlots⟩ m.body.code failure.cause ∨
        2 ^ 32 ≤ m.body.code.length) := by
  obtain ⟨id, hid, hname, hcause⟩ := exists_of_failure hfailure
  obtain ⟨⟨_, body⟩, hmem, rfl⟩ := List.mem_map.mp hid
  obtain ⟨m, hfound, rfl⟩ := h.exists_method hmem
  have hm := h.indexed_withBodies.id_of_method? hfound
  dsimp only at hm hfound hid hname
  rw [← hm] at hfound hid hname
  refine ⟨m, hid, hfound, hname, ?_⟩
  rcases hcause with hnone | ⟨method, alloc', hmethod, herror⟩
  · cases hnone.symm.trans (hm ▸ hfound)
  · cases hmethod.symm.trans (hm ▸ hfound)
    exact hinders_of_compileMethod (h.acceptable hmem _) herror

section Relocations

variable {natives : Natives} {alloc alloc' : Allocator} {compiled : CompiledBatch}

/-- The relocations of a compiled batch are for the callees of the calls in its bodies. -/
theorem Prepared.exists_relocation_iff (h : Prepared staged bodies)
    (hcompiles : Compiles (withBodies staged bodies) natives alloc (bodies.map Prod.fst)
      compiled.methods.toList compiled.relocations alloc') {source : SymbolId} :
    (∃ r ∈ compiled.relocations, r.source = source) ↔ ∃ id body, (id, body) ∈ bodies ∧
      ∃ inst ∈ body.code, inst.kind = .callStatic ∧ inst.args.head? = some (.symbol source) := by
  obtain ⟨hsites, -, -⟩ := hcompiles.sites h.indexed_withBodies h.nodup
  constructor
  · rintro ⟨r, hr, rfl⟩
    obtain ⟨⟨id, i⟩, hcall, method, hmethod, compiled', -, -, hsite⟩ := exists_of_forall₂ hsites hr
    obtain ⟨id', hid', hcall⟩ := List.mem_flatMap.mp hcall
    obtain ⟨⟨_, body⟩, hmem, rfl⟩ := List.mem_map.mp hid'
    obtain ⟨m, hfound, rfl⟩ := h.exists_method hmem
    rw [hfound] at hcall
    obtain ⟨_, -, heq⟩ := List.mem_map.mp hcall
    cases heq
    cases hmethod.symm.trans hfound
    obtain ⟨inst, hinst, hkind, hhead⟩ := hsite.call
    exact ⟨_, _, hmem, inst, List.mem_of_getElem? hinst, hkind, hhead⟩
  · rintro ⟨id, body, hmem, inst, hinst, hkind, hhead⟩
    obtain ⟨m, hfound, rfl⟩ := h.exists_method hmem
    obtain ⟨i, hi⟩ := List.mem_iff_getElem?.mp hinst
    have hcall : (id, i) ∈ callsOf (withBodies staged bodies) (bodies.map Prod.fst) := by
      refine List.mem_flatMap.mpr ⟨id, List.mem_map_of_mem hmem, ?_⟩
      rw [hfound]
      exact List.mem_map_of_mem (mem_callsIn.mpr ⟨inst, hi, hkind⟩)
    obtain ⟨r, hr, method, hmethod, compiled', -, -, hsite⟩ := exists_of_forall₂ hsites.flip hcall
    cases hmethod.symm.trans hfound
    obtain ⟨inst', hinst', -, hhead'⟩ := hsite.call
    cases hinst'.symm.trans hi
    cases hhead.symm.trans hhead'
    exact ⟨r, hr, rfl⟩

/-- Linking misses the code for a relocation exactly if a body calls a method that is not
compiled. -/
theorem Prepared.missing_iff (h : Prepared staged bodies)
    (hcompiles : Compiles (withBodies staged bodies) natives alloc (bodies.map Prod.fst)
      compiled.methods.toList compiled.relocations alloc') :
    (∃ r ∈ compiled.relocations, codeAddress? (withBodies staged bodies) compiled r.source = none) ↔
      ∃ id body, (id, body) ∈ bodies ∧ CallsUncompiled (withBodies staged bodies) body.code := by
  have hids := hcompiles.ids
  constructor
  · rintro ⟨r, hr, hcode⟩
    obtain ⟨id, body, hmem, inst, hinst, hkind, hhead⟩ :=
      (h.exists_relocation_iff hcompiles).mp ⟨r, hr, rfl⟩
    obtain ⟨callee, hid, hfound⟩ :=
      exists_callee h.indexed_withBodies (h.acceptable hmem natives) hinst hkind hhead
    dsimp only at hfound
    rw [← hid] at hcode hfound hhead
    exact ⟨id, body, hmem, inst, hinst, hkind, callee, hhead, hfound,
      (h.codeAddress?_eq_none_iff hids hfound).mp hcode⟩
  · rintro ⟨id, body, hmem, inst, hinst, hkind, callee, hhead, hfound, hcompiled⟩
    obtain ⟨r, hr, hsource⟩ := (h.exists_relocation_iff hcompiles).mpr
      ⟨id, body, hmem, inst, hinst, hkind, hhead⟩
    exact ⟨r, hr, hsource ▸ (h.codeAddress?_eq_none_iff hids hfound).mpr hcompiled⟩

end Relocations

/-- A batch that is compiled and calls compiled methods alone is loaded. -/
theorem exists_loads (config : Config) (requests : List Request) {batch : List PackageDecl}
    (hfresh : taken? ((serveAll config requests).packages.toList.map Package.name) batch = none)
    (hstage : (serveAll config requests).stage batch = .ok staged)
    (hlower : lowerStaged staged = .ok bodies) {methods : List CompiledMethod}
    {relocations : List Relocation} {alloc : Allocator}
    (hcompiles : Compiles (withBodies staged bodies) (serveAll config requests).nativeAddress?
      { limit := (serveAll config requests).config.codeLimit,
        next := (serveAll config requests).nextCode }
      (bodies.map Prod.fst) methods relocations alloc)
    (hcalls : ∀ entry ∈ bodies, ¬ CallsUncompiled (withBodies staged bodies) entry.2.code) :
    ∃ linked vm', (serveAll config requests).Loads batch staged bodies linked vm' ∧
      vm'.nextCode = alloc.next := by
  have h := prepared_of_stage config requests hstage hlower
  let compiled : CompiledBatch := { methods := methods.toArray, relocations }
  have hready : ∀ r ∈ compiled.relocations, Ready compiled r := fun r hr =>
    Compiles.ready h.indexed_withBodies h.nodup hcompiles hr
  have hmissing :
      (∃ r ∈ compiled.relocations, codeAddress? (withBodies staged bodies) compiled r.source =
      none) ↔ _ := h.missing_iff hcompiles
  obtain ⟨hlink, -⟩ | ⟨r, hr, hcode, -⟩ := @link_cases (withBodies staged bodies) compiled hready
  · exact ⟨_, _, ⟨hfresh, hstage, hlower, methods, relocations, alloc, hcompiles,
      Prod.ext rfl hlink, rfl⟩, rfl⟩
  · obtain ⟨id, body, hmem, huncompiled⟩ := hmissing.mp ⟨r, hr, hcode⟩
    exact absurd huncompiled (hcalls _ hmem)

/-- **The stages agree.** Let the tables of a batch be built and its methods be lowered, on a
machine that served any requests. If compiling them fails, the reason is that a body is empty, that
a native method is called that is not bound or cannot be called, or that there is no memory; only if
a body has as many instructions as there are labels, labels may run out before. If it succeeds,
linking fails exactly if a body calls a method that is not compiled, and the error names a callee
that has no code. -/
theorem stages_agree (config : Config) (requests : List Request) {batch : List PackageDecl}
    (hstage : (serveAll config requests).stage batch = .ok staged)
    (hlower : lowerStaged staged = .ok bodies) :
    let vm := serveAll config requests
    let ctx := withBodies staged bodies
    let compilation := vm.compile ctx (bodies.map Prod.fst)
    (∀ failure, compilation.failure = some failure →
        ∃ m, m.id ∈ bodies.map Prod.fst ∧ ctx.method? m.id = some m ∧
          failure.method = ctx.qualifiedName m.id ∧
          (Hinders ⟨ctx, vm.nativeAddress?, m.body.frameSlots⟩ m.body.code failure.cause ∨
            2 ^ 32 ≤ m.body.code.length)) ∧
      (compilation.failure = none →
        (∀ e, (link ctx compilation.batch).2 = some e →
          ∃ id, e = .missingSource id (ctx.qualifiedName id)) ∧
        ((link ctx compilation.batch).2 ≠ none ↔
          ∃ id body, (id, body) ∈ bodies ∧ CallsUncompiled ctx body.code)) := by
  intro vm ctx compilation
  have h := prepared_of_stage config requests hstage hlower
  refine ⟨fun failure hfailure => h.hinders_of_failure hfailure, fun hok => ?_⟩
  have hcompiles := compiles_of_compileBatch hok
  have hready : ∀ r ∈ compilation.batch.relocations, Ready compilation.batch r :=
    fun r hr => hcompiles.ready h.indexed_withBodies h.nodup hr
  rw [← h.missing_iff hcompiles]
  obtain ⟨hlink, hall⟩ | ⟨r, hr, hcode, hlink⟩ := @link_cases ctx _ hready
  · rw [hlink]
    refine ⟨nofun, iff_of_false (fun hne => hne rfl) ?_⟩
    rintro ⟨r, hr, hcode⟩
    exact Option.isSome_iff_ne_none.mp (hall r hr) hcode
  · rw [hlink]
    exact ⟨fun e he => ⟨r.source, (Option.some.inj he).symm⟩, iff_of_true nofun ⟨r, hr, hcode⟩⟩

/-! ### A call of another package -/

/-- The constants of a class that calls a method of another package. -/
def callerConstants : ConstantPool := .ofList [.methodRef ⟨"q/Main", "f", "()V"⟩]

/-- A package with a method that calls a method of another one. -/
def callerDecl : PackageDecl :=
  { name := "p", classes := [
    { name := "Main", constants := callerConstants, methods := [
      { name := "main", descriptor := "()V", access := .staticFlag, code := [0xb8, 0, 1, 0xb1] }] }]
      }

/-- The method that calls. -/
def caller : Method :=
  { name := "main", descriptor := "()V", signature := ⟨[], none⟩, access := .staticFlag,
    id := { (default : SymbolId) with package := ⟨1, Nat.le_of_ble_eq_true rfl⟩ }, maxLocals := 0,
    maxStack := 0, bytecode := [0xb8, 0, 1, 0xb1] }

/-- Its class. -/
def callerOwner : ClassTable :=
  { name := "Main", constants := callerConstants, methods := #[caller] }

/-- Its package, behind one other. -/
def callerPackage : Package := { index := 1, name := "p", classes := #[callerOwner] }

/-- What it is lowered to. -/
def callerBody : Body :=
  { code := [{ kind := .callStatic, args := [.symbol default], marks := ⟨true, true⟩ },
      { kind := .ret none }] }

/-- The body of `caller`. -/
theorem lower_caller {ctx : Context} {callee : Method}
    (hfound : ctx.findMethod? "q/Main" "f" "()V" = some callee)
    (hstatic : callee.access.isStatic = true)
    (hnative : callee.access.isNative = false) (hsignature : callee.signature = ⟨[], none⟩)
    (hid : callee.id = default) : Lowering.lower ctx callerOwner caller = .ok callerBody := by
  have hinvoke : Opcode.ofByte? 0xb8 =
      some ⟨0xb8, "invokestatic", 3, fun o => .invokeStatic (u16 o)⟩ := rfl
  have hret : Opcode.ofByte? 0xb1 = some ⟨0xb1, "return", 1, fun _ => .ret none⟩ := rfl
  have hindex : u16 [0, 1] = 1 := by decide
  have hconstant : callerConstants.get? 1 = some (.methodRef ⟨"q/Main", "f", "()V"⟩) := by decide
  simp [caller, callerOwner, Lowering.lower, Stream.scan, split, branchTargets, Located.target?,
    Located.instr, Instr.displacement?, hinvoke, hret, hindex]
  simp [lowerAt, lowerInstr, lowerInvoke, Located.instr, hindex, hconstant, hfound,
    hstatic, hnative,
    hsignature, hid, Descriptor.paramTypes, Descriptor.resultType, emit, resolve, markBlocks,
    jumpTargets,
    markFrom, Kind.isJump, callerBody, OperandStack.resetTo, Site.tmpIndex, ok_bind]

/-- Two packages. A method of the second one calls a method of the first one, which is abstract and
so is never compiled. -/
def orphanBatch : List PackageDecl :=
  [{ name := "q", classes := [
      { name := "Main", methods := [
        { name := "f", descriptor := "()V", access := .union .staticFlag .abstractFlag }] }] },
    callerDecl]

/-- The abstract method. -/
def orphanCallee : Method :=
  { name := "f", descriptor := "()V", signature := ⟨[], none⟩,
    access := .union .staticFlag .abstractFlag, id := default, maxLocals := 0, maxStack := 0,
    bytecode := [] }

/-- The tables of the batch. -/
def orphanContext : Context :=
  { staged := #[
      { index := 0, name := "q", classes := #[
        { name := "Main", constants := {}, methods := #[orphanCallee] }] },
      callerPackage] }

/-- The declarations are staged. -/
theorem stage_orphan : (serveAll {} []).stage orphanBatch = .ok orphanContext := by cbv

/-- The call finds its callee, which has no body. -/
theorem findMethod?_orphan :
    orphanContext.findMethod? "q/Main" "f" "()V" = some orphanCallee := by cbv

/-- The one body there is. -/
theorem lowerStaged_orphan : lowerStaged orphanContext = .ok [(caller.id, callerBody)] := by
  have howners : stagedOwners orphanContext =
      [(callerPackage, callerOwner, caller)] := by
    decide +kernel
  rw [lowerStaged, howners]
  simp [lower_caller findMethod?_orphan (by decide) (by decide) rfl rfl]

/-- All that the method sees once it has its body. -/
def orphanFilled : Context := withBodies orphanContext [(caller.id, callerBody)]

/-- The code of the caller. -/
theorem bodyPieces_orphan :
    bodyPieces ⟨orphanFilled, (serveAll {} []).nativeAddress?, 0⟩ callerBody.code =
      .ok foreverPieces := by
  simp only [bodyPieces, instructionPieces, labelAt, contains_branchLabels, callerBody]
  decide +kernel

/-- What compiling the batch leads to. -/
def orphanCompilation : Compilation := (serveAll {} []).compile orphanFilled [caller.id]

/-- Compiling does not fail. -/
theorem failure_orphan : orphanCompilation.failure = none := by
  have hfound : orphanFilled.method? caller.id = some { caller with body := callerBody } := rfl
  obtain ⟨compiled, relocations, alloc', hcompile, -, -⟩ :=
    @exists_compileMethod orphanFilled (serveAll {} []).nativeAddress?
      { next := Allocator.codeBase }
      caller.id { caller with body := callerBody } _ rfl bodyPieces_orphan (by decide)
      (by decide) rfl
      (by decide) (show Allocator.codeBase.toNat + 2 * mappableSize ≤ addressCount by decide)
  have hcompile' : compileMethod orphanFilled (serveAll {} []).nativeAddress?
      { limit := (serveAll {} []).config.codeLimit, next := (serveAll {} []).nextCode }
      caller.id { caller with body := callerBody } = (alloc', .ok (compiled, relocations)) :=
      hcompile
  simp [orphanCompilation, compile, compileBatch, compileBatch.go, hfound, hcompile']

/-- The batch is compiled, and cannot be linked. -/
theorem stages_agree_orphan :
    (serveAll {} []).stage orphanBatch = .ok orphanContext ∧
      lowerStaged orphanContext = .ok [(caller.id, callerBody)] ∧
      orphanCompilation.failure = none ∧
      ∃ id, (link orphanFilled orphanCompilation.batch).2 =
        some (.missingSource id (orphanFilled.qualifiedName id)) := by
  obtain ⟨-, hlink⟩ := stages_agree {} [] stage_orphan lowerStaged_orphan
  obtain ⟨hcause, hfails⟩ := hlink failure_orphan
  have hcalls : CallsUncompiled orphanFilled callerBody.code :=
    ⟨_, List.mem_cons_self, rfl, orphanCallee, rfl, rfl, by decide⟩
  obtain ⟨e, he⟩ :=
    Option.ne_none_iff_exists'.mp (hfails.mpr ⟨_, _, List.mem_singleton_self _, hcalls⟩)
  obtain ⟨id, rfl⟩ := hcause e he
  exact ⟨stage_orphan, lowerStaged_orphan, failure_orphan, id, he⟩

end SlotJit.Engine.Vm

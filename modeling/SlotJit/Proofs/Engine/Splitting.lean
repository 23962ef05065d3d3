import SlotJit.Proofs.Engine.Stages

/-!
# Splitting batches

Two batches can be loaded one after the other, or joined and loaded at once. The joined batch sees
more packages when its first half is lowered, and its second half is resolved among staged packages
instead of published ones. Nothing of that can be told from the result: if both ways succeed, they
end with the same tables and bodies, and with code that differs in the addresses of callees alone.

## Main results

* `Loads.exists_makes`: how a load makes the code of a method.
* `Makes.alike`: the code that two loads make of one body.
* `load_append`: what two batches and the joined one have in common.
-/

namespace SlotJit.Tables

/-! ### The tables of a joined batch -/

/-- Each package of a batch is built from its own declaration, at its own index. -/
theorem exists_of_buildAll {first : Nat} {batch : List PackageDecl} {packages : Array Package}
    (h : buildAll first batch = .ok packages) :
    packages.size = batch.length ∧ ∀ (i : Nat) (decl : PackageDecl), batch[i]? = some decl →
      ∃ p, Package.build (first + i) decl = .ok p ∧ packages[i]? = some p := by
  obtain ⟨built, hbuilt, h⟩ := bind_eq_ok.mp h
  cases h
  obtain ⟨hlength, hget⟩ := getElem?_of_mapM hbuilt
  refine ⟨by simpa using hlength, fun i decl hdecl => ?_⟩
  obtain ⟨p, hp, hi⟩ := hget i (decl, i) (by rw [List.getElem?_zipIdx, hdecl, Nat.zero_add]; rfl)
  exact ⟨p, hp, by simpa using hi⟩

/-- The tables of a joined batch are those of its halves. -/
theorem eq_append_of_buildAll {first : Nat} {batch batch' : List PackageDecl}
    {packages packages' joined : Array Package} (h : buildAll first batch = .ok packages)
    (h' : buildAll (first + batch.length) batch' = .ok packages')
    (hjoined : buildAll first (batch ++ batch') = .ok joined) : joined = packages ++ packages' := by
  obtain ⟨hsize, hget⟩ := exists_of_buildAll h
  obtain ⟨hsize', hget'⟩ := exists_of_buildAll h'
  obtain ⟨hsizes, hgets⟩ := exists_of_buildAll hjoined
  rw [List.length_append] at hsizes
  apply Array.ext_getElem?
  intro i
  rcases Nat.lt_or_ge i batch.length with hlt | hge
  · have hdecl := List.getElem?_eq_getElem hlt
    obtain ⟨p, hbuild, hp⟩ := hget i _ hdecl
    obtain ⟨q, hbuild', hq⟩ := hgets i _ ((List.getElem?_append_left hlt).trans hdecl)
    cases hbuild.symm.trans hbuild'
    rw [Array.getElem?_append_left (by omega), hp, hq]
  · rw [Array.getElem?_append_right (by omega), hsize]
    rcases Nat.lt_or_ge (i - batch.length) batch'.length with hlt | hout
    · have hdecl := List.getElem?_eq_getElem hlt
      obtain ⟨p, hbuild, hp⟩ := hget' _ _ hdecl
      obtain ⟨q, hbuild', hq⟩ := hgets i _ ((List.getElem?_append_right hge).trans hdecl)
      rw [Nat.add_assoc, Nat.add_sub_cancel' hge] at hbuild
      cases hbuild.symm.trans hbuild'
      rw [hp, hq]
    · rw [Array.getElem?_eq_none (by omega), Array.getElem?_eq_none (by omega)]

/-- A method but for its code. -/
def Method.withoutCode (m : Method) : Method := { m with code := none }

end SlotJit.Tables

namespace SlotJit.Codegen

open SlotJit.CodeMemory SlotJit.Tables

/-- The relocations of a batch for one of its methods are those that compiling the method gave. -/
theorem Compiles.exists_own {ctx : Context} {natives : Natives} {alloc alloc' : Allocator}
    {ids : List SymbolId} {methods : List CompiledMethod} {relocations : List Relocation}
    (hctx : ctx.Indexed) (hnodup : ids.Nodup)
    (h : Compiles ctx natives alloc ids methods relocations alloc') {compiled : CompiledMethod}
    (hmem : compiled ∈ methods) :
    ∃ method own first second, ctx.method? compiled.id = some method ∧
      compileMethod ctx natives first compiled.id method = (second, .ok (compiled, own)) ∧
      ∀ r, r ∈ own ↔ r ∈ relocations ∧ r.target = compiled.id := by
  induction h with
  | nil => cases hmem
  | @cons first second last id ids method head rest own others found compile tail ih =>
      obtain ⟨hnew, hnodup⟩ := List.nodup_cons.mp hnodup
      have hhead : head.id = id := id_of_compileMethod compile
      have htarget : ∀ r ∈ own, r.target = head.id := by
        intro r hr
        obtain ⟨i, -, hsite⟩ := exists_of_forall₂ (sites_of_compileMethod hctx compile).1 hr
        exact hsite.target.trans ((hctx.id_of_method? found).trans hhead.symm)
      obtain ⟨-, -, hothers⟩ := tail.sites hctx hnodup
      rcases List.mem_cons.mp hmem with rfl | hmem
      · refine ⟨method, own, first, second, hhead ▸ found, hhead ▸ compile,
          fun r => ⟨fun hr => ?_, ?_⟩⟩
        · exact ⟨List.mem_append_left _ hr, htarget r hr⟩
        · rintro ⟨hr, hsame⟩
          rcases List.mem_append.mp hr with hr | hr
          · exact hr
          · exact absurd (hsame.trans hhead ▸ hothers r hr) hnew
      · obtain ⟨method', own', first', second', hfound, hcompile, hown⟩ := ih hnodup hmem
        have hid : compiled.id ∈ ids := by
          rw [← tail.ids]
          exact List.mem_map_of_mem hmem
        refine ⟨method', own', first', second', hfound, hcompile, fun r => ?_⟩
        rw [hown, List.mem_append]
        refine and_congr_left fun hsame => ⟨Or.inr, ?_⟩
        rintro (hr | hr)
        · rw [← hhead, ← htarget r hr, hsame] at hnew
          exact absurd hid hnew
        · exact hr

end SlotJit.Codegen

namespace SlotJit.Engine.Vm

open SlotJit.CodeMemory SlotJit.Codegen SlotJit.Linking SlotJit.Lowering SlotJit.Tables

variable {vm vm' : Vm} {batch : List PackageDecl} {staged : Context}
  {bodies : List (SymbolId × Ir.Body)} {linked : CompiledBatch} {id : SymbolId}

/-! ### The methods of a loaded batch -/

/-- A load leaves what was declared. -/
theorem finish_declared (bodies : List (SymbolId × Ir.Body)) (linked : CompiledBatch) (m : Method) :
    (finish bodies linked m).declared = m.declared := by
  rw [finish, declared_fill setCode fun _ _ => rfl, declared_fill setBody fun _ _ => rfl]

/-- The packages after a load are declared like those of its batch and before. -/
theorem Loads.declaredPackages (hvm : vm.context.Indexed)
    (h : vm.Loads batch staged bodies linked vm') :
    vm'.context.declaredPackages = staged.declaredPackages := by
  obtain ⟨-, hpublished⟩ := h.indexed hvm
  simp [Context.declaredPackages, Vm.context, h.packages hvm, hpublished,
    Package.declared_mapMethods (finish_declared bodies linked)]

/-- A method that was published before a load. -/
theorem Loads.method?_of_published (hvm : vm.context.Indexed)
    (h : vm.Loads batch staged bodies linked vm') {m : Method} (hm : vm.method? id = some m) :
    vm'.method? id = some m := by
  obtain ⟨p, hp, hm⟩ := Option.bind_eq_some_iff.mp hm
  have hp' : vm'.context.package? id.package.val = some p := by
    rw [Context.package?_eq, Vm.context, Array.append_empty] at hp ⊢
    rw [h.packages hvm, Array.getElem?_append_left (Array.getElem?_eq_some_iff.mp hp).1, hp]
  rw [Vm.method?, Context.method?, methodAt?, hp', Option.bind_eq_bind, Option.bind_some]
  exact hm

/-- A method of a loaded batch. -/
theorem Loads.method?_of_staged (hvm : vm.context.Indexed)
    (h : vm.Loads batch staged bodies linked vm') (hid : ¬ id.package.val < vm.packages.size) :
    vm'.method? id = (staged.method? id).map (finish bodies linked) := by
  obtain ⟨-, hpublished⟩ := h.indexed hvm
  have hfinal : vm'.method? id = (staged.mapStaged (finish bodies linked)).method? id := by
    apply Context.method?_eq_of_append_eq
    simp [Vm.context, Context.mapStaged, hpublished, h.packages hvm]
  rw [hfinal, Context.method?_mapStaged, if_neg (hpublished ▸ hid)]

/-- A method of a loaded batch is found by its id. -/
theorem Loads.method?_of_owns (hvm : vm.context.Indexed)
    (h : vm.Loads batch staged bodies linked vm')
    {p : Package} {c : ClassTable} {m : Method} (howns : Owns staged p c m) :
    vm'.method? m.id = some (finish bodies linked m) := by
  obtain ⟨hindexed, hpublished⟩ := h.indexed hvm
  obtain ⟨hstaged, hfound⟩ := howns.method? hindexed
  rw [h.method?_of_staged hvm (hpublished ▸ hstaged), hfound, Option.map_some]

/-! ### How a load makes code -/

/-- The site of a relocation in the code of a method holds the address of the callee's code. -/
def Reaches (vm : Vm) (code : Region) (r : Relocation) : Prop :=
  ∃ callee target, vm.method? r.source = some callee ∧ callee.code = some target ∧
    code.window r.offset 8 = littleEndian 8 target.base.toNat

/-- A position is in none of the sites. -/
def Outside (sites : List Relocation) (position : Nat) : Prop :=
  ∀ r ∈ sites, position < r.offset ∨ r.offset + 8 ≤ position

/-- The code of a method is what its body was compiled to, with the addresses of callees filled
in. -/
def Makes (ctx : Context) (natives : Natives) (vm : Vm) (m : Method) (code : Region) : Prop :=
  ∃ method alloc alloc' compiled sites, method.id = m.id ∧ method.body = m.body ∧
    compileMethod ctx natives alloc m.id method = (alloc', .ok (compiled, sites)) ∧
    code.size = compiled.code.size ∧ (∀ r ∈ sites, vm.Reaches code r) ∧
    ∀ position, Outside sites position → code.byte position = compiled.code.byte position

section Load

variable (hprepared : Prepared staged bodies) (h : vm.Loads batch staged bodies linked vm')

include hprepared h

/-- What linking does to the methods of a batch that is loaded. -/
theorem Loads.exists_linkedAs : ∃ compiled relocations alloc,
    Compiles (withBodies staged bodies) vm.nativeAddress?
      { limit := vm.config.codeLimit, next := vm.nextCode } (bodies.map Prod.fst) compiled
        relocations
      alloc ∧
    List.Forall₂ (LinkedAs (withBodies staged bodies) ⟨compiled.toArray, relocations⟩) compiled
      linked.methods.toList ∧
    vm' = vm.publish (withBodies staged bodies) linked alloc.next := by
  obtain ⟨compiled, relocations, alloc, hcompiles, hlink, hpublish⟩ := h.compile
  have hctx := hprepared.indexed_withBodies
  obtain ⟨-, hapart, -⟩ := hcompiles.sites hctx hprepared.nodup
  have hids : (compiled.map CompiledMethod.id).Nodup := by
    rw [hcompiles.ids]
    exact hprepared.nodup
  exact ⟨compiled, relocations, alloc, hcompiles,
    linkedAs_of_link hids hapart (fun r hr => hcompiles.ready hctx hprepared.nodup hr) hlink,
    hpublish⟩

variable (hvm : vm.context.Indexed)

include hvm

/-- The code of each method of a batch is published for it. -/
theorem Loads.exists_code_of_mem {c : CompiledMethod} (hc : c ∈ linked.methods) :
    ∃ m, vm'.method? c.id = some m ∧ m.code = some c.code := by
  have hids := h.ids
  have hnodup : (linked.methods.toList.map CompiledMethod.id).Nodup := hids ▸ hprepared.nodup
  have hid : c.id ∈ bodies.map Prod.fst := hids ▸ List.mem_map_of_mem (Array.mem_def.mp hc)
  obtain ⟨⟨_, body⟩, hmem, hbody⟩ := List.mem_map.mp hid
  obtain ⟨p, owner, m, howns, hcompiled, hm, -⟩ := exists_of_mem_bodies hprepared.lowered hmem
  obtain ⟨body', hfilled, -, -⟩ := exists_body hprepared.indexed hprepared.lowered howns
  obtain ⟨code, hcode, hsome, -⟩ := exists_code hprepared.indexed hprepared.lowered hids howns body'
  obtain ⟨c', hc', hid', rfl⟩ := hsome hcompiled
  have hsame : c'.id = c.id := hid'.trans (hm.trans hbody)
  cases List.inj_on_of_nodup_map hnodup (Array.mem_def.mp hc') (Array.mem_def.mp hc) hsame
  refine ⟨finish bodies linked m, hid' ▸ h.method?_of_owns hvm howns, ?_⟩
  rw [finish, hfilled, hcode]

/-- Where linking finds the entry of a callee, the machine has its code. -/
theorem Loads.exists_code_of_entry {compiled : List CompiledMethod} {relocations : List Relocation}
    (hlinked :
      List.Forall₂ (LinkedAs (withBodies staged bodies) ⟨compiled.toArray, relocations⟩) compiled
      linked.methods.toList) {address : UInt64}
    (hentry : Entry (withBodies staged bodies) ⟨compiled.toArray, relocations⟩ id address) :
    ∃ m code, vm'.method? id = some m ∧ m.code = some code ∧ code.base = address := by
  cases hentry with
  | @compiled c hmem hid =>
      obtain ⟨c', hc', hlinkedAs⟩ := exists_of_forall₂ hlinked.flip (by simpa using hmem)
      obtain ⟨m, hm, hcode⟩ := h.exists_code_of_mem hprepared hvm (Array.mem_def.mpr hc')
      rw [hlinkedAs.place.id, hid] at hm
      exact ⟨m, c'.code, hm, hcode, hlinkedAs.place.base⟩
  | @published method code _ hfound hcode =>
      have hpublished := (h.indexed hvm).2
      rw [withBodies_eq_mapStaged hprepared.indexed, Context.method?_mapStaged] at hfound
      split at hfound
      · rename_i hlt
        refine ⟨method, code, h.method?_of_published hvm ?_, hcode, rfl⟩
        rw [hpublished] at hlt
        simpa [Vm.method?, Context.method?, methodAt?, Context.package?, Vm.context,
          hpublished, hlt] using hfound
      · -- A staged method has no code yet.
        rename_i hnot
        obtain ⟨m, hm, rfl⟩ := Option.map_eq_some_iff.mp hfound
        obtain ⟨p, c, howns⟩ := exists_owns hnot hm
        obtain ⟨body, hbody, -, -⟩ := exists_body hprepared.indexed hprepared.lowered howns
        rw [hbody] at hcode
        cases (hprepared.empty p howns.package c howns.classTable m howns.method).symm.trans hcode

/-- How a load makes the code of a method. -/
theorem Loads.exists_makes {p : Package} {c : ClassTable} {m : Method} (howns : Owns staged p c m)
    (hcompiled : m.isCompiled = true) :
    ∃ code, (finish bodies linked m).code = some code ∧
      Makes (withBodies staged bodies) vm.nativeAddress? vm' (finish bodies linked m) code := by
  obtain ⟨compiled, relocations, alloc, hcompiles, hlinked, -⟩ := h.exists_linkedAs hprepared
  obtain ⟨body, hbody, -, -⟩ := exists_body hprepared.indexed hprepared.lowered howns
  obtain ⟨code, hcode, hsome, -⟩ := exists_code hprepared.indexed hprepared.lowered h.ids howns body
  obtain ⟨c', hc', hid', rfl⟩ := hsome hcompiled
  have hfinish : finish bodies linked m = { m with body, code := some c'.code } := by
    rw [finish, hbody, hcode]
  obtain ⟨fresh, hfresh, hlinkedAs⟩ := exists_of_forall₂ hlinked (Array.mem_def.mp hc')
  obtain ⟨method, own, first, second, hfound, hcompile, hown⟩ :=
    hcompiles.exists_own hprepared.indexed_withBodies hprepared.nodup hfresh
  have hmethod : method = { m with body } := by
    obtain ⟨hstaged, hm⟩ := howns.method? hprepared.indexed
    rw [← hlinkedAs.place.id, hid', withBodies_eq_mapStaged hprepared.indexed,
      Context.method?_mapStaged, if_neg hstaged, hm, Option.map_some, hbody] at hfound
    exact (Option.some.inj hfound).symm
  rw [hlinkedAs.place.id.symm.trans hid'] at hcompile
  rw [hfinish]
  refine ⟨c'.code, rfl, method, first, second, fresh, own, by rw [hmethod], by rw [hmethod],
    hcompile, hlinkedAs.place.size, fun r hr => ?_, fun position hout => ?_⟩
  · obtain ⟨hr, htarget⟩ := (hown r).mp hr
    obtain ⟨address, hentry, hwindow⟩ := hlinkedAs.sites r hr htarget
    obtain ⟨callee, target, hcallee, htarget, hbase⟩ :=
      h.exists_code_of_entry hprepared hvm hlinked hentry
    exact ⟨callee, target, hcallee, htarget, hbase ▸ hwindow⟩
  · exact hlinkedAs.kept position fun r hr htarget => hout r ((hown r).mpr ⟨hr, htarget⟩)

end Load

/-! ### Code that is alike -/

/-- The code of a method in two machines is the same but for its call sites. There is one site for
each call of a compiled method in the body, in order and apart from the others, and it holds the
address of the code of the same callee, each in its machine. -/
structure Alike (vm vm' : Vm) (m : Method) (code code' : Region) : Prop where
  size : code'.size = code.size
  sites : ∃ sites : List Relocation,
    List.Forall₂ (fun i r => ∃ inst, m.body.code[i]? = some inst ∧ inst.kind = .callStatic ∧
      inst.args.head? = some (.symbol r.source)) (callsIn m.body.code) sites ∧
    sites.Pairwise (fun r r' => r.offset + 8 ≤ r'.offset) ∧
    (∀ r ∈ sites, r.offset + 8 ≤ code.size ∧ vm.Reaches code r ∧ vm'.Reaches code' r) ∧
    ∀ position, Outside sites position → code'.byte position = code.byte position

/-- The code that two loads make of one body. -/
theorem Makes.alike {ctx ctx' : Context} {natives : Natives} {m m' : Method} {code code' : Region}
    (hctx : ctx.Indexed) (hprecedes : ctx.Precedes ctx') (hid : m'.id = m.id)
    (hbody : m'.body = m.body) (h : Makes ctx natives vm m code)
    (h' : Makes ctx' natives vm' m' code') :
    Alike vm vm' m code code' := by
  obtain ⟨method, alloc, after, compiled, sites, hmethod, hmbody, hcompile, hsize, hreaches,
      hkept⟩ := h
  obtain ⟨method', alloc', after', compiled', sites', hmethod', hmbody', hcompile', hsize',
    hreaches', hkept'⟩ := h'
  obtain ⟨rfl, hsame, hbytes⟩ := alike_of_compileMethod hctx hprecedes
    (hmethod'.trans (hid.trans hmethod.symm)) (hmbody'.trans (hbody.trans hmbody.symm)) hcompile
    hcompile'
  obtain ⟨hsites, hapart⟩ := sites_of_compileMethod hctx hcompile
  refine ⟨by rw [hsize, hsize', hsame], sites', ?_, hapart, fun r hr => ?_, fun position hout => ?_⟩
  · rw [← hmbody]
    exact hsites.imp fun i r hsite => hsite.call
  · obtain ⟨i, -, hsite⟩ := exists_of_forall₂ hsites hr
    exact ⟨hsize ▸ hsite.inside, hreaches r hr, hreaches' r hr⟩
  · rw [hkept position hout, hkept' position hout, hbytes]

/-- Code stays alike in a machine that has published more. -/
theorem Alike.of_published {next : Vm} {m : Method} {code code' : Region}
    (hmethods : ∀ id m, vm.method? id = some m → next.method? id = some m)
    (h : Alike vm vm' m code code') : Alike next vm' m code code' := by
  obtain ⟨sites, hcalls, hapart, hreaches, hkept⟩ := h.sites
  refine ⟨h.size, sites, hcalls, hapart, fun r hr => ?_, hkept⟩
  obtain ⟨hinside, ⟨callee, target, hfound, hcode, hwindow⟩, hreaches'⟩ := hreaches r hr
  exact ⟨hinside, ⟨callee, target, hmethods _ _ hfound, hcode, hwindow⟩, hreaches'⟩

/-! ### Loading a part of a batch -/

/-- The staged packages of a context are among those of another one, which it precedes. -/
structure PartOf (part whole : Context) : Prop where
  precedes : part.Precedes whole
  staged : ∀ p ∈ part.staged, p ∈ whole.staged

/-- What a part owns the whole owns. -/
theorem PartOf.owns {part whole : Context} (h : PartOf part whole) {p : Package} {c : ClassTable}
    {m : Method} (howns : Owns part p c m) : Owns whole p c m :=
  ⟨h.staged p howns.package, howns.classTable, howns.method⟩

/-- A method has the same body if it is loaded with more packages. -/
theorem Finishes.body_eq {part whole : Context} (h : part.Precedes whole) {c : ClassTable}
    {m m₁ m₂ : Method} (h₁ : Finishes part c m m₁) (h₂ : Finishes whole c m m₂) :
    m₂.body = m₁.body := by
  cases hcompiled : m.isCompiled with
  | true =>
      have hlower := lower_of_precedes h (h₁.lowered hcompiled)
      exact Except.ok.inj ((h₂.lowered hcompiled).symm.trans hlower)
  | false => rw [(h₁.empty hcompiled).1, (h₂.empty hcompiled).1]

section Parts

variable {vm₁ vm₁' vm₂ vm₂' : Vm} {batch₁ batch₂ : List PackageDecl} {part whole : Context}
  {bodies₁ bodies₂ : List (SymbolId × Ir.Body)} {linked₁ linked₂ : CompiledBatch}
  (hpart : PartOf part whole) (hvm₁ : vm₁.context.Indexed)
  (h₁ : vm₁.Loads batch₁ part bodies₁ linked₁ vm₁')
  (hvm₂ : vm₂.context.Indexed) (h₂ : vm₂.Loads batch₂ whole bodies₂ linked₂ vm₂')

include hpart hvm₁ h₁ hvm₂ h₂

/-- A method that is loaded with a part of a batch or with the whole one is the same but for its
code. -/
theorem PartOf.withoutCode_eq {p : Package} {c : ClassTable} {m : Method}
    (howns : Owns part p c m) :
    (finish bodies₂ linked₂ m).withoutCode = (finish bodies₁ linked₁ m).withoutCode := by
  have hfinishes₁ := h₁.finishes hvm₁ howns
  have hfinishes₂ := h₂.finishes hvm₂ (hpart.owns howns)
  rw [hfinishes₁.kept, hfinishes₂.kept, hfinishes₁.body_eq hpart.precedes hfinishes₂]
  rfl

/-- So are the packages of the part. -/
theorem PartOf.map_withoutCode_eq :
    (part.staged.map (Package.mapMethods (finish bodies₂ linked₂))).map
        (Package.mapMethods Method.withoutCode) =
      (part.staged.map (Package.mapMethods (finish bodies₁ linked₁))).map
        (Package.mapMethods Method.withoutCode) := by
  rw [Array.map_map, Array.map_map]
  refine Array.map_congr_left fun p hp => ?_
  rw [Function.comp_apply, Function.comp_apply, Package.mapMethods_comp, Package.mapMethods_comp]
  exact Package.mapMethods_congr fun c hc m hm =>
    hpart.withoutCode_eq hvm₁ h₁ hvm₂ h₂ ⟨hp, hc, hm⟩

/-- A method that is loaded with a part of a batch or with the whole one has code that is alike, or
none, whatever is loaded after the part. -/
theorem PartOf.alike (hprepared₁ : Prepared part bodies₁) (hprepared₂ : Prepared whole bodies₂)
    (hnatives : vm₂.nativeAddress? = vm₁.nativeAddress?) {next : Vm}
    (hnext : ∀ id m, vm₁'.method? id = some m → next.method? id = some m) {p : Package}
    {c : ClassTable} {m : Method} (howns : Owns part p c m) :
    Option.Rel (Alike next vm₂' (finish bodies₁ linked₁ m)) (finish bodies₁ linked₁ m).code
      (finish bodies₂ linked₂ m).code := by
  have hfinishes₁ := h₁.finishes hvm₁ howns
  have hfinishes₂ := h₂.finishes hvm₂ (hpart.owns howns)
  cases hcompiled : m.isCompiled with
  | true =>
      obtain ⟨code₁, hcode₁, hmakes₁⟩ := h₁.exists_makes hprepared₁ hvm₁ howns hcompiled
      obtain ⟨code₂, hcode₂, hmakes₂⟩ :=
        h₂.exists_makes hprepared₂ hvm₂ (hpart.owns howns) hcompiled
      have hprecedes : (withBodies part bodies₁).Precedes (withBodies whole bodies₂) := by
        rw [Context.Precedes, hprepared₁.declaredPackages, hprepared₂.declaredPackages]
        exact hpart.precedes
      have hid : (finish bodies₂ linked₂ m).id = (finish bodies₁ linked₁ m).id := by
        rw [hfinishes₁.kept, hfinishes₂.kept]
      have hbody := hfinishes₁.body_eq hpart.precedes hfinishes₂
      have halike :=
        hmakes₁.alike hprepared₁.indexed_withBodies hprecedes hid hbody (hnatives ▸ hmakes₂)
      rw [hcode₁, hcode₂]
      exact .some (halike.of_published hnext)
  | false =>
      have hempty := hprepared₁.empty p howns.package c howns.classTable m howns.method
      rw [(hfinishes₁.empty hcompiled).2, (hfinishes₂.empty hcompiled).2, hempty]
      exact .none

end Parts

/-! ### Two batches -/

section Batches

variable {vm₁ vm₂ : Vm} {first second : List PackageDecl} {staged₁ staged₂ : Context}
  {bodies₁ bodies₂ : List (SymbolId × Ir.Body)} {linked₁ linked₂ : CompiledBatch}

/-- A load binds no native methods. -/
theorem Loads.nativeAddress?_eq (h : vm.Loads batch staged bodies linked vm') :
    vm'.nativeAddress? = vm.nativeAddress? := by
  obtain ⟨compiled, relocations, alloc, -, -, rfl⟩ := h.compile
  rfl

/-- Two batches that are loaded one after the other are parts of the joined one. -/
theorem Loads.partOf_append (hvm : vm.context.Indexed)
    (h₁ : vm.Loads first staged₁ bodies₁ linked₁ vm₁)
    (h₂ : vm₁.Loads second staged₂ bodies₂ linked₂ vm₂)
    (h : vm.Loads (first ++ second) staged bodies linked vm') :
    staged.staged = staged₁.staged ++ staged₂.staged ∧ PartOf staged₁ staged ∧
      PartOf staged₂ staged := by
  obtain ⟨hpublished₁, hbuild₁⟩ := exists_of_stage h₁.stage
  obtain ⟨hpublished₂, hbuild₂⟩ := exists_of_stage h₂.stage
  obtain ⟨hpublished, hbuild⟩ := exists_of_stage h.stage
  have hsize : vm₁.packages.size = vm.packages.size + first.length := by
    rw [h₁.packages hvm, Array.size_append, Array.size_map, (represents_buildAll hbuild₁).1]
  rw [hsize] at hbuild₂
  have hstaged := eq_append_of_buildAll hbuild₁ hbuild₂ hbuild
  have hwhole : staged.declaredPackages =
      staged₁.declaredPackages ++ staged₂.staged.toList.map Package.declared := by
    simp [Context.declaredPackages, hpublished, hpublished₁, hstaged]
  have hsecond : staged₂.declaredPackages = staged.declaredPackages := by
    rw [hwhole, ← h₁.declaredPackages hvm]
    simp [Context.declaredPackages, hpublished₂, Vm.context]
  refine ⟨hstaged, ⟨⟨_, hwhole.symm⟩, fun p hp => ?_⟩, ⟨?_, fun p hp => ?_⟩⟩
  · rw [hstaged]
    exact Array.mem_append_left _ hp
  · rw [Context.Precedes, hsecond]
  · rw [hstaged]
    exact Array.mem_append_right _ hp

end Batches

/-- Two machines agree. Their packages are the same but for code: names, order, ids, signatures,
access flags, and the body and the size of the frame of every method. Up to an index they are the
same with their code, and the methods of the later packages have code that is alike. -/
structure Agrees (published : Nat) (vm vm' : Vm) : Prop where
  tables : vm'.packages.map (Package.mapMethods Method.withoutCode) =
    vm.packages.map (Package.mapMethods Method.withoutCode)
  before : ∀ i < published, vm'.packages[i]? = vm.packages[i]?
  code : ∀ id m m', published ≤ id.package.val → vm.method? id = some m → vm'.method? id = some m' →
    Option.Rel (Alike vm vm' m) m.code m'.code

/-- **Splitting a batch does not matter.** On a machine that served any requests, let two batches be
loaded one after the other, and let the joined batch be loaded too. Both ways end with the same
tables and the same bodies, and with the same code but for the call sites, which hold the address of
the same callee. -/
theorem load_append (config : Config) (requests : List Request) {first second : List PackageDecl}
    {vm₁ vm₂ vm' : Vm} (hfirst : (serveAll config requests).load first = (vm₁, none))
    (hsecond : vm₁.load second = (vm₂, none))
    (hjoined : (serveAll config requests).load (first ++ second) = (vm', none)) :
    Agrees (serveAll config requests).packages.size vm₂ vm' := by
  have hvm₁ : serveAll config (requests ++ [.load first]) = vm₁ := by
    rw [serveAll_concat, serve_load_of_none hfirst]
  obtain ⟨staged₁, bodies₁, linked₁, h₁⟩ := exists_of_load hfirst
  obtain ⟨staged₂, bodies₂, linked₂, h₂⟩ := exists_of_load hsecond
  obtain ⟨staged, bodies, linked, h⟩ := exists_of_load hjoined
  have hprepared₁ := prepared_of_stage config requests h₁.stage h₁.lower
  have hprepared₂ := prepared_of_stage config _ (hvm₁ ▸ h₂.stage) h₂.lower
  have hprepared := prepared_of_stage config requests h.stage h.lower
  have hindexed := indexed_of_reachable (reachable_serveAll config requests)
  have hindexed₁ : vm₁.context.Indexed := hvm₁ ▸ indexed_of_reachable (reachable_serveAll _ _)
  obtain ⟨hstaged, hpart₁, hpart₂⟩ := h₁.partOf_append hindexed h₂ h
  refine ⟨?_, fun i hi => ?_, fun id m m' hid hm hm' => ?_⟩
  · simp only [h.packages hindexed, h₂.packages hindexed₁, h₁.packages hindexed, hstaged,
      Array.map_append, Array.append_assoc]
    rw [hpart₁.map_withoutCode_eq hindexed h₁ hindexed h,
      hpart₂.map_withoutCode_eq hindexed₁ h₂ hindexed h]
  · rw [h.packages hindexed, h₂.packages hindexed₁, h₁.packages hindexed, Array.append_assoc,
      Array.getElem?_append_left hi, Array.getElem?_append_left hi]
  · obtain ⟨hindexed', hpublished⟩ := h.indexed hindexed
    rw [h.method?_of_staged hindexed (Nat.not_lt.mpr hid)] at hm'
    obtain ⟨m₀, hm₀, rfl⟩ := Option.map_eq_some_iff.mp hm'
    obtain rfl : m₀.id = id := hindexed'.id_of_method? hm₀
    obtain ⟨p, c, howns⟩ := exists_owns (hpublished ▸ Nat.not_lt.mpr hid) hm₀
    -- The method is in one of the halves.
    rcases Array.mem_append.mp (hstaged ▸ howns.package) with hp | hp
    · have howns₁ : Owns staged₁ p c m₀ := ⟨hp, howns.classTable, howns.method⟩
      have hfound := h₂.method?_of_published hindexed₁ (h₁.method?_of_owns hindexed howns₁)
      cases hm.symm.trans hfound
      exact hpart₁.alike hindexed h₁ hindexed h hprepared₁ hprepared rfl
        (fun _ _ => h₂.method?_of_published hindexed₁) howns₁
    · have howns₂ : Owns staged₂ p c m₀ := ⟨hp, howns.classTable, howns.method⟩
      cases hm.symm.trans (h₂.method?_of_owns hindexed₁ howns₂)
      exact hpart₂.alike hindexed₁ h₂ hindexed h hprepared₂ hprepared h₁.nativeAddress?_eq.symm
        (fun _ _ => id) howns₂

/-! ### A method and its caller -/

section Caller

open SlotJit.Bytecode SlotJit.Ir

/-- A package with a method that returns. -/
def calleeDecl : PackageDecl :=
  { name := "q", classes := [
    { name := "Main", methods := [
      { name := "f", descriptor := "()V", access := .staticFlag, code := [0xb1] }] }] }

/-- The method that returns. -/
def callee : Method :=
  { name := "f", descriptor := "()V", signature := ⟨[], none⟩, access := .staticFlag, id := default,
    maxLocals := 0, maxStack := 0, bytecode := [0xb1] }

/-- Its class. -/
def calleeOwner : ClassTable := { name := "Main", constants := {}, methods := #[callee] }

/-- Its package. -/
def calleePackage : Package := { index := 0, name := "q", classes := #[calleeOwner] }

/-- What it is lowered to. -/
def calleeBody : Body := { code := [{ kind := .ret none, marks := ⟨true, true⟩ }] }

/-- Its code. -/
def calleePieces : List Piece :=
  [.instr (.lea .rax (frameMem 0)),
    .instr (.aluLoad .cmp .qword .rax { base := envReg, disp := 0 }),
    .jump (some .be) 2, .instr .trap, .label 2, .instr (.jmpMem (frameMem (-16)))]

/-- The body of `callee`. -/
theorem lower_callee (ctx : Context) : Lowering.lower ctx calleeOwner callee = .ok calleeBody := by
  have hret : Opcode.ofByte? 0xb1 = some ⟨0xb1, "return", 1, fun _ => .ret none⟩ := rfl
  simp [callee, calleeOwner, Lowering.lower, Stream.scan, split, branchTargets, Located.target?,
    Located.instr, Instr.displacement?, hret]
  simp [lowerAt, lowerInstr, Located.instr, emit, resolve, markBlocks, jumpTargets, markFrom,
    Kind.isJump, calleeBody, OperandStack.resetTo, Site.tmpIndex]

/-- Without a limit and with memory left, the method that returns is compiled anywhere. -/
theorem exists_compile_callee (ctx : Context) (natives : Natives) (alloc : Allocator)
    (hlimit : alloc.limit = none) (hroom : alloc.next.toNat + 2 * mappableSize ≤ addressCount) :
    ∃ compiled relocations alloc', compileMethod ctx natives alloc callee.id
        { callee with body := calleeBody } = (alloc', .ok (compiled, relocations)) ∧
      alloc'.limit = none ∧
      alloc'.next.toNat ≤ alloc.next.toNat + mappableSize := by
  have hpieces : bodyPieces ⟨ctx, natives, 0⟩ calleeBody.code = .ok calleePieces := by
    simp only [bodyPieces, instructionPieces, labelAt, contains_branchLabels, calleeBody]
    rfl
  obtain ⟨compiled, relocations, alloc', hcompile, -, -⟩ :=
    @exists_compileMethod ctx natives alloc callee.id { callee with body := calleeBody } _
      rfl hpieces (by decide) (by decide) hlimit (by decide) hroom
  exact ⟨compiled, relocations, alloc', hcompile, room_of_compileMethod hcompile hlimit⟩

/-- It calls nothing. -/
theorem not_callsUncompiled_callee (ctx : Context) : ¬ CallsUncompiled ctx calleeBody.code := by
  rintro ⟨inst, hinst, hkind, -⟩
  cases List.mem_singleton.mp hinst
  cases hkind

/-- The tables of the callee's package alone. -/
def calleeContext : Context := { staged := #[calleePackage] }

/-- The tables of both packages. -/
def pairContext : Context := { staged := #[calleePackage, callerPackage] }

/-- Both packages with their bodies. -/
def pairFilled : Context :=
    withBodies pairContext [(callee.id, calleeBody), (caller.id, callerBody)]

/-- Both declarations are staged together. -/
theorem stage_pair :
    (serveAll {} []).stage [calleeDecl, callerDecl] = .ok pairContext := by cbv

/-- The call finds its callee. -/
theorem findMethod?_pair : pairContext.findMethod? "q/Main" "f" "()V" = some callee := by cbv

/-- Both bodies. -/
theorem lowerStaged_pair :
    lowerStaged pairContext = .ok [(callee.id, calleeBody), (caller.id, callerBody)] := by
  have howners : stagedOwners pairContext =
      [(calleePackage, calleeOwner, callee), (callerPackage, callerOwner, caller)] := by
    decide +kernel
  rw [lowerStaged, howners]
  simp [lower_callee, lower_caller findMethod?_pair (by decide) (by decide) rfl rfl]
  rfl

/-- The bodies fill the tables. -/
theorem prepared_pair : Prepared pairContext [(callee.id, calleeBody), (caller.id, callerBody)] :=
  prepared_of_stage {} [] stage_pair lowerStaged_pair

/-- The code of the caller. -/
theorem bodyPieces_pair :
    bodyPieces ⟨pairFilled, (serveAll {} []).nativeAddress?, 0⟩ callerBody.code =
      .ok foreverPieces := by
  simp only [bodyPieces, instructionPieces, labelAt, contains_branchLabels, callerBody]
  decide +kernel

/-- The caller is compiled wherever both packages are declared, staged or published. -/
theorem exists_compile_caller {ctx : Context} (h : pairFilled.Precedes ctx) (alloc : Allocator)
    (hlimit : alloc.limit = none) (hroom : alloc.next.toNat + 2 * mappableSize ≤ addressCount) :
    ∃ compiled relocations alloc', compileMethod ctx (serveAll {} []).nativeAddress? alloc
      caller.id { caller with body := callerBody } = (alloc', .ok (compiled, relocations)) := by
  have hpieces : bodyPieces ⟨ctx, (serveAll {} []).nativeAddress?, 0⟩ callerBody.code =
      .ok foreverPieces :=
    @bodyPieces_of_precedes ⟨pairFilled, (serveAll {} []).nativeAddress?, 0⟩ _ _
      prepared_pair.indexed_withBodies h _ bodyPieces_pair
  obtain ⟨compiled, relocations, alloc', hcompile, -, -⟩ :=
    @exists_compileMethod ctx (serveAll {} []).nativeAddress? alloc caller.id
      { caller with body := callerBody } _ rfl hpieces (by decide) (by decide) hlimit
      (by decide) hroom
  exact ⟨compiled, relocations, alloc', hcompile⟩

/-- What it calls is compiled. -/
theorem not_callsUncompiled_caller {ctx : Context} (h : pairFilled.Precedes ctx) :
    ¬ CallsUncompiled ctx callerBody.code := by
  rintro ⟨inst, hinst, hkind, m, hhead, hfound, huncompiled⟩
  obtain ⟨m', hm', hdeclared⟩ :=
    h.method? (show pairFilled.method? default = some { callee with body := calleeBody } from rfl)
  have hid : m.id = default := by
    simp only [callerBody, List.mem_cons, List.not_mem_nil, or_false] at hinst
    rcases hinst with rfl | rfl
    · exact (Operand.symbol.inj (Option.some.inj hhead)).symm
    · cases hkind
  rw [hid] at hfound
  cases hfound.symm.trans hm'
  have hcompiled : m.isCompiled = true := congrArg Method.isCompiled hdeclared
  cases hcompiled.symm.trans huncompiled

/-- The callee is loaded first. -/
theorem exists_load_callee :
    ∃ linked vm₁, (serveAll {} []).Loads [calleeDecl] calleeContext
      [(callee.id, calleeBody)] linked vm₁ ∧
      vm₁.nextCode.toNat ≤ Allocator.codeBase.toNat + mappableSize := by
  have hstage : (serveAll {} []).stage [calleeDecl] = .ok calleeContext := by cbv
  have hlower : lowerStaged calleeContext = .ok [(callee.id, calleeBody)] := by
    have howners : stagedOwners calleeContext = [(calleePackage, calleeOwner, callee)] := by
      decide +kernel
    rw [lowerStaged, howners]
    simp [lower_callee]
  obtain ⟨compiled, relocations, alloc, hcompile, -, hroom⟩ :=
    exists_compile_callee (withBodies calleeContext [(callee.id, calleeBody)])
      (serveAll {} []).nativeAddress? { next := Allocator.codeBase } rfl (by decide)
  have hfound : (withBodies calleeContext [(callee.id, calleeBody)]).method? callee.id =
      some { callee with body := calleeBody } := rfl
  have hcompiles := Compiles.cons hfound hcompile (.nil alloc)
  obtain ⟨linked, vm₁, h, hnext⟩ := exists_loads {} [] (by decide) hstage hlower hcompiles (by
    intro entry hentry
    cases List.mem_singleton.mp hentry
    exact not_callsUncompiled_callee _)
  exact ⟨linked, vm₁, h, hnext ▸ hroom⟩

/-- Both are loaded at once. -/
theorem exists_load_pair : ∃ vm', (serveAll {} []).load [calleeDecl, callerDecl] = (vm', none) := by
  obtain ⟨first, relocations, second, hfirst, hlimit, hroom⟩ :=
    exists_compile_callee pairFilled (serveAll {} []).nativeAddress?
      { next := Allocator.codeBase } rfl (by decide)
  obtain ⟨last, relocations', alloc, hlast⟩ :=
    exists_compile_caller (List.prefix_refl _) second hlimit
      (Nat.le_trans (Nat.add_le_add_right hroom _) (by decide))
  have hcallee : pairFilled.method? callee.id = some { callee with body := calleeBody } := rfl
  have hcaller : pairFilled.method? caller.id = some { caller with body := callerBody } := rfl
  have hcompiles := Compiles.cons hcallee hfirst (.cons hcaller hlast (.nil alloc))
  obtain ⟨linked, vm', h, -⟩ :=
    exists_loads {} [] (by decide) stage_pair lowerStaged_pair hcompiles (by
      intro entry hentry
      rcases List.mem_cons.mp hentry with rfl | hentry
      · exact not_callsUncompiled_callee _
      · cases List.mem_singleton.mp hentry
        exact not_callsUncompiled_caller (List.prefix_refl _))
  exact ⟨vm', h.load_eq⟩

/-- Once the callee is published, the caller can be loaded. -/
theorem exists_load_caller {linked : CompiledBatch} {vm₁ : Vm}
    (h : (serveAll {} []).Loads [calleeDecl] calleeContext [(callee.id, calleeBody)] linked vm₁)
    (hnext : vm₁.nextCode.toNat ≤ Allocator.codeBase.toNat + mappableSize) :
    ∃ vm₂, vm₁.load [callerDecl] = (vm₂, none) := by
  have hvm₁ : serveAll {} [.load [calleeDecl]] = vm₁ := serve_load_of_none h.load_eq
  have hpackages : vm₁.packages =
      #[calleePackage.mapMethods (finish [(callee.id, calleeBody)] linked)] := by
    simp [h.packages (indexed_of_reachable (reachable_serveAll {} [])), serveAll, calleeContext]
  have hlimit : vm₁.config.codeLimit = none := by
    obtain ⟨compiled, relocations, alloc, -, -, rfl⟩ := h.compile
    rfl
  let staged : Context := { published := vm₁.packages, staged := #[callerPackage] }
  have hstage : vm₁.stage [callerDecl] = .ok staged := by
    have hbuild : buildAll 1 [callerDecl] = .ok #[callerPackage] := by cbv
    rw [stage, hpackages]
    simp [hbuild, staged, hpackages]
  have hprecedes : pairContext.Precedes staged := by
    rw [Context.Precedes, Context.declaredPackages, Context.declaredPackages]
    simp [staged, hpackages, Package.declared_mapMethods (finish_declared _ linked), pairContext]
  have hlower : lowerStaged staged = .ok [(caller.id, callerBody)] := by
    obtain ⟨m, hfound, hm⟩ := hprecedes.findMethod? findMethod?_pair
    have howners : stagedOwners staged = [(callerPackage, callerOwner, caller)] := rfl
    have hlowered := lower_caller hfound (congrArg (·.access.isStatic) hm)
      (congrArg (·.access.isNative) hm) (congrArg Method.signature hm) (congrArg Method.id hm)
    rw [lowerStaged, howners]
    simp [hlowered]
  have hfilled : pairFilled.Precedes (withBodies staged [(caller.id, callerBody)]) := by
    rw [Context.Precedes, pairFilled, prepared_pair.declaredPackages,
      (prepared_of_stage {} _ (hvm₁ ▸ hstage) hlower).declaredPackages]
    exact hprecedes
  obtain ⟨compiled, relocations, alloc, hcompile⟩ := exists_compile_caller hfilled
    { limit := vm₁.config.codeLimit, next := vm₁.nextCode } hlimit
    (Nat.le_trans (Nat.add_le_add_right hnext _) (by decide))
  have hfound : (withBodies staged [(caller.id, callerBody)]).method? caller.id =
      some { caller with body := callerBody } := by
    simp only [staged, hpackages]
    rfl
  have hcompiles := Compiles.cons hfound hcompile (.nil alloc)
  rw [← h.nativeAddress?_eq] at hcompiles
  subst hvm₁
  obtain ⟨linked', vm₂, h₂, -⟩ :=
    exists_loads {} [.load [calleeDecl]] (by rw [hpackages]; rfl) hstage hlower hcompiles (by
      intro entry hentry
      cases List.mem_singleton.mp hentry
      exact not_callsUncompiled_caller hfilled)
  exact ⟨vm₂, h₂.load_eq⟩

/-- A method and its caller can be loaded one after the other and at once. -/
theorem load_append_caller :
    ∃ vm₁ vm₂ vm', (serveAll {} []).load [calleeDecl] = (vm₁, none) ∧
      vm₁.load [callerDecl] = (vm₂, none) ∧
      (serveAll {} []).load ([calleeDecl] ++ [callerDecl]) = (vm', none) ∧ Agrees 0 vm₂ vm' := by
  obtain ⟨linked, vm₁, h₁, hnext⟩ := exists_load_callee
  obtain ⟨vm₂, h₂⟩ := exists_load_caller h₁ hnext
  obtain ⟨vm', h'⟩ := exists_load_pair
  exact ⟨vm₁, vm₂, vm', h₁.load_eq, h₂, h', load_append {} [] h₁.load_eq h₂ h'⟩

end Caller

end SlotJit.Engine.Vm

import SlotJit.Proofs.Engine.Publication

/-!
# The tables of a machine

A machine is asked to register native methods and to load batches, some of which it cannot load.
After any requests its packages are those of the batches that were loaded, in order, and every
method is at the position that its id tells. The methods with bytecode have the bodies that they are
lowered to in their batches, and executable code; the others have neither.

## Main results

* `tables_of_requests`: the tables after any requests, and what loading a further batch does to
  them.
-/

namespace SlotJit.Engine.Vm

open SlotJit.Codegen SlotJit.Lowering SlotJit.Tables

variable {vm vm' : Vm} {batch : List PackageDecl} {staged : Context}
  {bodies : List (SymbolId × Ir.Body)} {linked : CompiledBatch}

/-! ### The packages of a batch -/

/-- A package at an index was loaded with a batch. It holds what the batch declares there, and each
of its methods with bytecode has the body that it is lowered to beside the packages that were
published before and the other ones of the batch. -/
structure LoadedWith (vm : Vm) (batch : List PackageDecl) (i : Nat) (p : Package) : Prop where
  index : p.index = i
  declared : vm.packages.size ≤ i ∧
    ∃ decl, batch[i - vm.packages.size]? = some decl ∧ p.Represents decl
  lowered : ∃ ctx, vm.stage batch = .ok ctx ∧ ctx.package? i = some p.declared ∧
    ∀ c ∈ p.classes, ∀ m ∈ c.methods, m.isCompiled = true →
      Lowering.lower ctx c.declared m.declared = .ok m.body

/-- A method has executable code if it has bytecode, and else none. -/
structure Coded (m : Method) : Prop where
  isSome_iff : m.code.isSome ↔ m.isCompiled = true
  executable : ∀ code, m.code = some code → code.executable = true

/-- A method that had no code has it if it has bytecode. -/
theorem Finishes.coded {ctx : Context} {c : ClassTable} {m m' : Method} (h : Finishes ctx c m m')
    (hnone : m.code = none) : Coded m' := by
  cases hcompiled : m.isCompiled with
  | true =>
      obtain ⟨code, hcode, hexecutable⟩ := h.compiled hcompiled
      refine ⟨by simp [hcode, h.isCompiled, hcompiled], fun code' hcode' => ?_⟩
      cases hcode.symm.trans hcode'
      exact hexecutable
  | false =>
      have hcode := (h.empty hcompiled).2.trans hnone
      refine ⟨by simp [hcode, h.isCompiled, hcompiled], fun code' hcode' => ?_⟩
      cases hcode.symm.trans hcode'

/-- The tables of a staged batch. -/
theorem exists_of_stage (h : vm.stage batch = .ok staged) :
    staged.published = vm.packages ∧ buildAll vm.packages.size batch = .ok staged.staged := by
  unfold Vm.stage at h
  split at h
  · rename_i packages hbuild
    cases h
    exact ⟨rfl, hbuild⟩
  · cases h

/-- What was staged is what is published, before anything is filled in. -/
theorem Loads.declared_finish (hvm : vm.context.Indexed)
    (h : vm.Loads batch staged bodies linked vm') {p : Package} {c : ClassTable} {m : Method}
    (howns : Owns staged p c m) : (finish bodies linked m).declared = m := by
  have hkept := (h.finishes hvm howns).kept
  obtain ⟨hbody, hcode⟩ :=
    empty_of_buildAll (exists_of_stage h.stage).2 howns.package howns.classTable howns.method
  rw [hkept, Method.declared]
  rcases m with ⟨⟩
  simp_all

/-- The packages that a load adds. -/
theorem Loads.loadedWith (hvm : vm.context.Indexed) (h : vm.Loads batch staged bodies linked vm')
    {i : Nat} {p : Package} (hp : staged.staged[i]? = some p) :
    vm.LoadedWith batch (vm.packages.size + i) (p.mapMethods (finish bodies linked)) ∧
      ∀ c ∈ (p.mapMethods (finish bodies linked)).classes, ∀ m ∈ c.methods, Coded m := by
  have hmem := Array.mem_of_getElem? hp
  have hclass : ∀ c ∈ p.classes, (c.mapMethods (finish bodies linked)).declared = c := by
    intro c hc
    rw [ClassTable.declared, ClassTable.mapMethods_comp]
    exact ClassTable.mapMethods_eq_self fun j m hm =>
      h.declared_finish hvm ⟨hmem, hc, Array.mem_of_getElem? hm⟩
  have hpackage : (p.mapMethods (finish bodies linked)).declared = p := by
    rw [Package.declared, Package.mapMethods_comp]
    exact Package.mapMethods_eq_self fun _ _ c m hc hm =>
      h.declared_finish hvm ⟨hmem, Array.mem_of_getElem? hc, Array.mem_of_getElem? hm⟩
  obtain ⟨hpublished, hbuild⟩ := exists_of_stage h.stage
  obtain ⟨hindex, decl, hdecl, hrepresents⟩ := (represents_buildAll hbuild).2 i p hp
  have hmethod : ∀ c' ∈ (p.mapMethods (finish bodies linked)).classes, ∀ m' ∈ c'.methods,
      ∃ c ∈ p.classes, ∃ m ∈ c.methods, c'.declared = c ∧ m' = finish bodies linked m := by
    intro c' hc' m' hm'
    obtain ⟨c, hc, rfl⟩ := Array.mem_map.mp hc'
    obtain ⟨m, hm, rfl⟩ := Array.mem_map.mp hm'
    exact ⟨c, hc, m, hm, hclass c hc, rfl⟩
  refine ⟨⟨hindex, ⟨Nat.le_add_right _ _, decl, ?_, ?_⟩, staged, h.stage, ?_, ?_⟩, ?_⟩
  · rwa [Nat.add_sub_cancel_left]
  · exact Package.represents_of_declared (hpackage.symm ▸ hrepresents)
  · rw [hpackage, Context.package?_eq, hpublished,
      Array.getElem?_append_right (Nat.le_add_right _ _), Nat.add_sub_cancel_left, hp]
  · intro c' hc' m' hm' hcompiled
    obtain ⟨c, hc, m, hm, hdeclared, rfl⟩ := hmethod c' hc' m' hm'
    have howns : Owns staged p c m := ⟨hmem, hc, hm⟩
    have hfinishes := h.finishes hvm howns
    rw [hdeclared, h.declared_finish hvm howns]
    exact hfinishes.lowered (by rwa [← hfinishes.isCompiled])
  · intro c' hc' m' hm'
    obtain ⟨c, hc, m, hm, -, rfl⟩ := hmethod c' hc' m' hm'
    exact (h.finishes hvm ⟨hmem, hc, hm⟩).coded
      (empty_of_buildAll hbuild hmem hc hm).2

/-! ### The tables after requests -/

/-- The tables after requests. Packages stand in the order in which they were loaded, and their
names differ. Every method is at the position that its id tells, and is found there; so is its
position in the packed word of the id. -/
structure Tabled (config : Config) (requests : List Request) : Prop where
  loaded : ∀ (i : Nat) (p : Package), (serveAll config requests).packages[i]? = some p →
    ∃ before batch after, requests = before ++ .load batch :: after ∧
      (serveAll config before).LoadedWith batch i p
  names : ((serveAll config requests).packages.toList.map Package.name).Nodup
  positions : ∀ (i j k : Nat) (p : Package) (c : ClassTable) (m : Method),
    (serveAll config requests).packages[i]? = some p → p.classes[j]? = some c →
    c.methods[k]? = some m →
      (m.id.package.val = i ∧ m.id.classIndex.val = j ∧ m.id.member.val = k) ∧
      (m.id.raw.toNat / 2 ^ 40 = i ∧ m.id.raw.toNat / 2 ^ 16 % 2 ^ 24 = j ∧
        m.id.raw.toNat % 2 ^ 16 = k) ∧
      (serveAll config requests).method? m.id = some m
  coded : ∀ p ∈ (serveAll config requests).packages, ∀ c ∈ p.classes, ∀ m ∈ c.methods, Coded m

/-- A load appends the packages of the batch in order. Ids mean the same methods in the tables of
the batch before publication and in the machine after it. -/
structure Appends (vm : Vm) (batch : List PackageDecl) (vm' : Vm) : Prop where
  packages : ∃ new : Array Package, vm'.packages = vm.packages ++ new ∧ new.size = batch.length ∧
    ∀ (i : Nat) (p : Package), new[i]? = some p → vm.LoadedWith batch (vm.packages.size + i) p
  resolved : ∃ staged bodies linked, vm.Loads batch staged bodies linked vm' ∧
    (∀ id, (withCode (withBodies staged bodies) linked).method? id = vm'.method? id) ∧
    ∀ id, staged.method? id =
      if id.package.val < vm.packages.size then vm'.method? id
      else (vm'.method? id).map Method.declared

/-- What becomes of a machine that is asked to load a batch. -/
def LoadOutcome (vm : Vm) (batch : List PackageDecl) : Vm × Option LoadError → Prop
  | (vm', none) => vm.serve (.load batch) = vm' ∧ vm.Appends batch vm'
  | (vm', some _) => vm.serve (.load batch) = vm' ∧ vm' = vm

/-- A staged method that an id finds has an owner. -/
theorem exists_owns {id : SymbolId} {m : Method} (hid : ¬ id.package.val < staged.published.size)
    (h : staged.method? id = some m) : ∃ p c, Owns staged p c m := by
  obtain ⟨p, hp, h⟩ := Option.bind_eq_some_iff.mp h
  obtain ⟨c, hc, hm⟩ := Option.bind_eq_some_iff.mp h
  rw [Context.package?, if_neg hid] at hp
  exact ⟨p, c, Array.mem_of_getElem? hp, Array.mem_of_getElem? hc, Array.mem_of_getElem? hm⟩

/-- What a load does to the tables. -/
theorem Loads.appends (hvm : vm.context.Indexed) (h : vm.Loads batch staged bodies linked vm') :
    vm.Appends batch vm' := by
  obtain ⟨hpublished, hbuild⟩ := exists_of_stage h.stage
  have hfinal : ∀ id,
      (withCode (withBodies staged bodies) linked).method? id = vm'.method? id := by
    intro id
    apply Context.method?_eq_of_append_eq
    rw [h.final hvm]
    simp [Vm.context, Context.mapStaged, hpublished, h.packages hvm]
  refine ⟨⟨_, h.packages hvm, ?_, fun i p hp => ?_⟩, staged, bodies, linked, h, hfinal,
    fun id => ?_⟩
  · rw [Array.size_map, (represents_buildAll hbuild).1]
  · rw [Array.getElem?_map, Option.map_eq_some_iff] at hp
    obtain ⟨p, hp, rfl⟩ := hp
    exact (h.loadedWith hvm hp).1
  · rw [← hfinal id, h.final hvm, Context.method?_mapStaged, hpublished]
    split
    · rfl
    · rename_i hid
      rcases hm : staged.method? id with _ | m
      · rfl
      · obtain ⟨p, c, howns⟩ := exists_owns (by rwa [hpublished]) hm
        exact congrArg some (h.declared_finish hvm howns).symm

/-- Requests are served in order. -/
theorem serveAll_concat (config : Config) (requests : List Request) (r : Request) :
    serveAll config (requests ++ [r]) = (serveAll config requests).serve r := by
  simp [serveAll]

/-- A machine that served requests is made by registering native methods and loading batches. -/
theorem reachable_serveAll (config : Config) (requests : List Request) :
    Reachable (serveAll config requests) := by
  induction requests using List.reverseRecOn with
  | nil => exact .initial config
  | append_singleton requests r ih =>
      rw [serveAll_concat]
      rcases r with ⟨name, address⟩ | batch
      · exact .register name address ih
      · exact .load batch ih

/-- The tables before a batch is loaded and what it adds. -/
theorem Appends.names (h : vm.Appends batch vm') :
    vm'.packages.toList.map Package.name =
      vm.packages.toList.map Package.name ++ batch.map PackageDecl.name := by
  obtain ⟨new, hpackages, hsize, hloaded⟩ := h.packages
  rw [hpackages, Array.toList_append, List.map_append]
  congr 1
  apply List.ext_getElem?
  intro i
  rw [List.getElem?_map, List.getElem?_map, Array.getElem?_toList]
  rcases hi : new[i]? with _ | p
  · have hout := Array.getElem?_eq_none_iff.mp hi
    rw [List.getElem?_eq_none (by omega)]
    rfl
  · obtain ⟨-, decl, hdecl, hrepresents⟩ := (hloaded i p hi).declared
    rw [Nat.add_sub_cancel_left] at hdecl
    rw [hdecl]
    exact congrArg some hrepresents.name

/-- Where every method is. -/
theorem positions_of_indexed (hvm : vm.context.Indexed) {i j k : Nat} {p : Package} {c : ClassTable}
    {m : Method} (hp : vm.packages[i]? = some p) (hc : p.classes[j]? = some c)
    (hm : c.methods[k]? = some m) :
    (m.id.package.val = i ∧ m.id.classIndex.val = j ∧ m.id.member.val = k) ∧
      (m.id.raw.toNat / 2 ^ 40 = i ∧ m.id.raw.toNat / 2 ^ 16 % 2 ^ 24 = j ∧
        m.id.raw.toNat % 2 ^ 16 = k) ∧
      vm.method? m.id = some m := by
  have hpackage : vm.context.package? i = some p := by
    simpa [Context.package?_eq, Vm.context] using hp
  obtain ⟨hi, hj, hk⟩ := hvm i p hpackage j k c m hc hm
  obtain ⟨hi', hj', hk'⟩ := raw_unpacks m.id
  exact ⟨⟨hi, hj, hk⟩, ⟨hi'.trans hi, hj'.trans hj, hk'.trans hk⟩, hvm.method?_id hpackage hc hm⟩

/-- A batch that is loaded keeps the tables. -/
theorem Tabled.load {config : Config} {requests : List Request} (h : Tabled config requests)
    (hload : (serveAll config requests).load batch = (vm', none)) :
    Tabled config (requests ++ [.load batch]) := by
  have hindexed := indexed_of_reachable (reachable_serveAll config requests)
  obtain ⟨staged, bodies, linked, hloads⟩ := exists_of_load hload
  have happends := hloads.appends hindexed
  obtain ⟨new, hpackages, hsize, hnew⟩ := happends.packages
  have hafter : serveAll config (requests ++ [.load batch]) = vm' := by
    rw [serveAll_concat, serve_load_of_none hload]
  constructor
  · intro i p hp
    rw [hafter, hpackages] at hp
    by_cases hlt : i < (serveAll config requests).packages.size
    · rw [Array.getElem?_append_left hlt] at hp
      obtain ⟨before, batch', after, rfl, hloaded⟩ := h.loaded i p hp
      exact ⟨before, batch', after ++ [.load batch], by simp, hloaded⟩
    · rw [Array.getElem?_append_right (Nat.le_of_not_lt hlt)] at hp
      have hloaded := hnew _ p hp
      rw [Nat.add_sub_cancel' (Nat.le_of_not_lt hlt)] at hloaded
      exact ⟨requests, batch, [], rfl, hloaded⟩
  · rw [hafter, happends.names]
    exact nodup_of_taken? h.names hloads.fresh
  · intro i j k p c m hp hc hm
    exact positions_of_indexed (indexed_of_reachable (reachable_serveAll _ _)) hp hc hm
  · intro p hp c hc m hm
    rw [hafter, hloads.packages hindexed, Array.mem_append] at hp
    rcases hp with hp | hp
    · exact h.coded p hp c hc m hm
    · obtain ⟨p', hp', rfl⟩ := Array.mem_map.mp hp
      obtain ⟨i, hi⟩ := Array.mem_iff_getElem?.mp hp'
      exact (hloads.loadedWith hindexed hi).2 c hc m hm

/-- A request that leaves the packages as they are keeps the tables. -/
theorem Tabled.of_packages_eq {config : Config} {requests : List Request}
    (h : Tabled config requests) {r : Request}
    (hpackages :
      (serveAll config (requests ++ [r])).packages = (serveAll config requests).packages) :
    Tabled config (requests ++ [r]) := by
  constructor
  · intro i p hp
    rw [hpackages] at hp
    obtain ⟨before, batch, after, rfl, hloaded⟩ := h.loaded i p hp
    exact ⟨before, batch, after ++ [r], by simp, hloaded⟩
  · rw [hpackages]
    exact h.names
  · intro i j k p c m hp hc hm
    exact positions_of_indexed (indexed_of_reachable (reachable_serveAll _ _)) hp hc hm
  · rw [hpackages]
    exact h.coded

/-- The tables after any requests. -/
theorem tabled (config : Config) (requests : List Request) : Tabled config requests := by
  induction requests using List.reverseRecOn with
  | nil => exact ⟨by simp [serveAll], by simp [serveAll], by simp [serveAll], by simp [serveAll]⟩
  | append_singleton requests r ih =>
      rcases r with ⟨name, address⟩ | batch
      · refine ih.of_packages_eq ?_
        rw [serveAll_concat]
        rfl
      · rcases hload : (serveAll config requests).load batch with ⟨vm', _ | e⟩
        · exact ih.load hload
        · refine ih.of_packages_eq ?_
          rw [serveAll_concat, serve_load_of_some hload]

/-- After any requests, whether batches were loaded or not, packages stand in the order of their
batches and hold what was declared: classes in strict order of their names, methods in order of
their names, and overloads in the order of their declarations. Every method is where its id tells;
it has code, which is executable, exactly if it has bytecode, and then its body is what it is
lowered to in its batch. A further batch that cannot be loaded leaves the machine as it is, and one
that is loaded appends its packages, in order, and leaves the meaning of ids as it was in the tables
of the batch. -/
theorem tables_of_requests (config : Config) (requests : List Request) :
    Tabled config requests ∧ ∀ batch, (serveAll config requests).LoadOutcome batch
      ((serveAll config requests).load batch) := by
  refine ⟨tabled config requests, fun batch => ?_⟩
  have hindexed := indexed_of_reachable (reachable_serveAll config requests)
  rcases hload : (serveAll config requests).load batch with ⟨vm', _ | e⟩
  · obtain ⟨staged, bodies, linked, hloads⟩ := exists_of_load hload
    exact ⟨serve_load_of_none hload, hloads.appends hindexed⟩
  · exact ⟨congrArg Prod.fst hload, eq_of_load_eq_some hload⟩

end SlotJit.Engine.Vm

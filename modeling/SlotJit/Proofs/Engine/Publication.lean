import SlotJit.Proofs.Codegen.Patching
import SlotJit.Proofs.Engine.Loading
import SlotJit.Proofs.Tables.Filling

/-!
# Publication

What a batch that is loaded adds to the published packages. The packages of the batch stand in its
order after those that were there, and are built from their declarations; then each method that has
bytecode is given the body that it is lowered to in the batch, and code that is executable. Nothing
else changes.

## Main results

* `exists_of_load`, `Loads.load_eq`: the steps of a successful load.
* `exists_body`, `exists_code`: what is filled in for each method.
* `Loads.packages`, `Loads.finishes`: what a load adds.
-/

namespace SlotJit.Engine

open SlotJit.CodeMemory SlotJit.Codegen SlotJit.Lowering SlotJit.Tables

/-! ### The steps of a load -/

namespace Vm

variable {vm vm' : Vm} {ctx : Context} {batch : List PackageDecl} {p : Package} {c : ClassTable}
  {m : Method}

/-- A batch is loaded: its tables are staged, its methods lowered, compiled and linked. -/
structure Loads (vm : Vm) (batch : List PackageDecl) (staged : Context)
    (bodies : List (SymbolId × Ir.Body)) (linked : CompiledBatch) (vm' : Vm) : Prop where
  fresh : taken? (vm.packages.toList.map Package.name) batch = none
  stage : vm.stage batch = .ok staged
  lower : lowerStaged staged = .ok bodies
  compile : ∃ compiled relocations alloc, Compiles (withBodies staged bodies) vm.nativeAddress?
      { limit := vm.config.codeLimit, next := vm.nextCode } (bodies.map Prod.fst) compiled
      relocations alloc ∧
    Linking.link (withBodies staged bodies) { methods := compiled.toArray, relocations } =
      (linked, none) ∧
    vm' = vm.publish (withBodies staged bodies) linked alloc.next

/-- The steps of a successful load. -/
theorem exists_of_load (h : vm.load batch = (vm', none)) :
    ∃ staged bodies linked, vm.Loads batch staged bodies linked vm' := by
  obtain ⟨ctx, ids, hprepare, h⟩ : ∃ ctx ids, vm.prepare batch = .ok (ctx, ids) ∧
      vm.linkAndPublish ctx (vm.compile ctx ids) = (vm', none) := by
    unfold load at h
    split at h
    · cases h
    · exact ⟨_, _, ‹_›, h⟩
  unfold prepare at hprepare
  split at hprepare
  · cases hprepare
  · rename_i hfresh
    obtain ⟨staged, hstage, hprepare⟩ := bind_eq_ok.mp hprepare
    obtain ⟨bodies, hlower, hprepare⟩ := bind_eq_ok.mp hprepare
    cases hprepare
    have hbodies : lowerStaged staged = .ok bodies := by
      unfold lowerBatch at hlower
      split at hlower <;> cases hlower
      assumption
    unfold linkAndPublish at h
    split at h
    · cases h
    · rename_i hfailure
      split at h
      · cases h
      · rename_i linked hlink
        cases h
        refine ⟨staged, bodies, linked, Option.eq_none_iff_forall_not_mem.mpr hfresh,
          hstage, hbodies, _, _, _, compiles_of_compileBatch hfailure, ?_, rfl⟩
        rw [Array.toArray_toList]
        exact hlink

/-- A batch that goes through all steps is loaded. -/
theorem Loads.load_eq {staged : Context} {bodies : List (SymbolId × Ir.Body)}
    {linked : CompiledBatch}
    (h : vm.Loads batch staged bodies linked vm') : vm.load batch = (vm', none) := by
  obtain ⟨compiled, relocations, alloc, hcompiles, hlink, rfl⟩ := h.compile
  have hlower : lowerBatch staged = .ok bodies := by
    rw [lowerBatch, h.lower]
  have hprepare : vm.prepare batch = .ok (withBodies staged bodies, bodies.map Prod.fst) := by
    rw [prepare, h.fresh]
    exact bind_eq_ok.mpr ⟨staged, h.stage, bind_eq_ok.mpr ⟨bodies, hlower, rfl⟩⟩
  have hcompile : vm.compile (withBodies staged bodies) (bodies.map Prod.fst) =
      { batch := { methods := compiled.toArray, relocations }, alloc } :=
      compileBatch_of_compiles hcompiles
  simp only [load, hprepare, linkAndPublish, hcompile, hlink]

/-! ### Names -/

/-- Where no name of a batch is taken, its names differ from the published ones and each other. -/
theorem nodup_of_taken? {published : List String} (hpublished : published.Nodup)
    (h : taken? published batch = none) :
    (published ++ batch.map PackageDecl.name).Nodup := by
  induction batch generalizing published with
  | nil => simpa using hpublished
  | cons p rest ih =>
      unfold taken? at h
      split at h
      · cases h
      · rename_i hnew
        have hnew : p.name ∉ published := by simpa using hnew
        have hnodup := ih (List.nodup_cons.mpr ⟨hnew, hpublished⟩) h
        exact List.nodup_middle.mpr hnodup

/-! ### What is filled in -/

/-- A staged method with its class and package. -/
structure Owns (ctx : Context) (p : Package) (c : ClassTable) (m : Method) : Prop where
  package : p ∈ ctx.staged
  classTable : c ∈ p.classes
  method : m ∈ c.methods

/-- Where ids are positions, a staged method is told by its id. -/
theorem Owns.eq_of_id_eq (hctx : ctx.Indexed) {p' : Package} {c' : ClassTable} {m' : Method}
    (h : Owns ctx p c m) (h' : Owns ctx p' c' m') (hid : m.id = m'.id) :
    p = p' ∧ c = c' ∧ m = m' := by
  obtain ⟨i, hi⟩ := Array.mem_iff_getElem?.mp h.package
  obtain ⟨j, hj⟩ := Array.mem_iff_getElem?.mp h.classTable
  obtain ⟨k, hk⟩ := Array.mem_iff_getElem?.mp h.method
  obtain ⟨i', hi'⟩ := Array.mem_iff_getElem?.mp h'.package
  obtain ⟨j', hj'⟩ := Array.mem_iff_getElem?.mp h'.classTable
  obtain ⟨k', hk'⟩ := Array.mem_iff_getElem?.mp h'.method
  obtain ⟨hpackage, hclass, hmember⟩ := hctx.staged hi j k c m hj hk
  obtain ⟨hpackage', hclass', hmember'⟩ := hctx.staged hi' j' k' c' m' hj' hk'
  rw [hid] at hpackage hclass hmember
  obtain rfl : i = i' := by omega
  obtain rfl : p = p' := Option.some.inj (hi.symm.trans hi')
  obtain rfl : j = j' := by omega
  obtain rfl : c = c' := Option.some.inj (hj.symm.trans hj')
  obtain rfl : k = k' := by omega
  exact ⟨rfl, rfl, Option.some.inj (hk.symm.trans hk')⟩

/-- The methods that are lowered are the staged ones that have bytecode. -/
theorem mem_stagedOwners : (p, c, m) ∈ stagedOwners ctx ↔ Owns ctx p c m ∧ m.isCompiled = true := by
  simp only [stagedOwners, List.mem_flatMap, List.mem_map, List.mem_filter, Array.mem_toList_iff,
    Prod.mk.injEq]
  constructor
  · rintro ⟨p', hp, c', hc, m', ⟨hm, hcompiled⟩, rfl, rfl, rfl⟩
    exact ⟨⟨hp, hc, hm⟩, hcompiled⟩
  · rintro ⟨⟨hp, hc, hm⟩, hcompiled⟩
    exact ⟨p, hp, c, hc, m, ⟨hm, hcompiled⟩, rfl, rfl, rfl⟩

variable {bodies : List (SymbolId × Ir.Body)}

/-- What is lowered for an id is the body of the staged method that has it. -/
theorem exists_of_mem_bodies (h : lowerStaged ctx = .ok bodies) {id : SymbolId} {body : Ir.Body}
    (hmem : (id, body) ∈ bodies) :
    ∃ p c m, Owns ctx p c m ∧ m.isCompiled = true ∧ m.id = id ∧
      Lowering.lower ctx c m = .ok body := by
  obtain ⟨⟨p, c, m⟩, howner, hlower⟩ := exists_of_forall₂ (forall₂_of_mapM h) hmem
  obtain ⟨howns, hcompiled⟩ := mem_stagedOwners.mp howner
  dsimp only at hlower
  split at hlower
  · rename_i body' hbody
    cases hlower
    exact ⟨p, c, m, howns, hcompiled, rfl, hbody⟩
  · cases hlower

/-- Every staged method that has bytecode is lowered. -/
theorem exists_mem_bodies (h : lowerStaged ctx = .ok bodies) (howns : Owns ctx p c m)
    (hcompiled : m.isCompiled = true) : ∃ body, (m.id, body) ∈ bodies := by
  obtain ⟨i, hi⟩ := List.mem_iff_getElem?.mp (mem_stagedOwners.mpr ⟨howns, hcompiled⟩)
  obtain ⟨⟨id, body⟩, hlower, hget⟩ := (getElem?_of_mapM h).2 i _ hi
  dsimp only at hlower
  split at hlower
  · cases hlower
    exact ⟨_, List.mem_of_getElem? hget⟩
  · cases hlower

/-- A method with a body set. -/
def setBody (body : Ir.Body) (m : Method) : Method := { m with body }

/-- A method with code set. -/
def setCode (code : Region) (m : Method) : Method := { m with code := some code }

/-- The code of a batch by id. -/
def codeEntries (linked : CompiledBatch) : List (SymbolId × Region) :=
  linked.methods.toList.map fun c => (c.id, c.code)

/-- Filling in bodies changes each staged method according to its own id. -/
theorem withBodies_eq_mapStaged (hctx : ctx.Indexed) (bodies : List (SymbolId × Ir.Body)) :
    withBodies ctx bodies = ctx.mapStaged (fill setBody bodies) :=
  foldl_modifyStaged setBody hctx (fun _ _ => rfl) bodies

/-- Filling in code changes each staged method according to its own id. -/
theorem withCode_eq_mapStaged (hctx : ctx.Indexed) (linked : CompiledBatch) :
    withCode ctx linked = ctx.mapStaged (fill setCode (codeEntries linked)) := by
  rw [← foldl_modifyStaged setCode hctx fun _ _ => rfl, codeEntries, List.foldl_map, withCode,
    ← Array.foldl_toList]
  rfl

/-- A staged method is given the body that it is lowered to, if it has bytecode, and none else. -/
theorem exists_body (hctx : ctx.Indexed) (h : lowerStaged ctx = .ok bodies)
    (howns : Owns ctx p c m) : ∃ body, fill setBody bodies m = { m with body } ∧
      (m.isCompiled = true → Lowering.lower ctx c m = .ok body) ∧
      (m.isCompiled = false → body = m.body) := by
  rcases fill_cases setBody (fun _ _ => rfl) (fun _ _ _ => rfl) bodies m with
    ⟨hkept, hnone⟩ | ⟨body, hmem, hfilled⟩
  · refine ⟨m.body, hkept, fun hcompiled => ?_, fun _ => rfl⟩
    obtain ⟨body, hmem⟩ := exists_mem_bodies h howns hcompiled
    exact absurd hmem (hnone body)
  · obtain ⟨p', c', m', howns', hcompiled, hid, hlower⟩ := exists_of_mem_bodies h hmem
    obtain ⟨-, rfl, rfl⟩ := howns'.eq_of_id_eq hctx howns hid
    exact ⟨body, hfilled, fun _ => hlower, fun hnot => absurd hcompiled (by rw [hnot]; decide)⟩

/-- A staged method is given code if it has bytecode, and none else. -/
theorem exists_code (hctx : ctx.Indexed) (h : lowerStaged ctx = .ok bodies) {linked : CompiledBatch}
    (hids : linked.methods.toList.map CompiledMethod.id = bodies.map Prod.fst)
    (howns : Owns ctx p c m) (body : Ir.Body) :
    ∃ code, fill setCode (codeEntries linked) { m with body } = { m with body, code } ∧
      (m.isCompiled = true → ∃ compiled ∈ linked.methods, compiled.id = m.id ∧
        code = some compiled.code) ∧
      (m.isCompiled = false → code = m.code) := by
  have hmem_ids : ∀ id, (∃ code, (id, code) ∈ codeEntries linked) ↔
      ∃ body, (id, body) ∈ bodies := by
    intro id
    have hiff : id ∈ linked.methods.toList.map CompiledMethod.id ↔ id ∈ bodies.map Prod.fst := by
      rw [hids]
    simpa [codeEntries] using hiff
  rcases fill_cases setCode (fun _ _ => rfl) (fun _ _ _ => rfl) (codeEntries linked)
    { m with body } with ⟨hkept, hnone⟩ | ⟨code, hmem, hfilled⟩
  · refine ⟨m.code, hkept, fun hcompiled => ?_, fun _ => rfl⟩
    obtain ⟨code, hmem⟩ := (hmem_ids m.id).mpr (exists_mem_bodies h howns hcompiled)
    exact absurd hmem (hnone code)
  · refine ⟨some code, hfilled, fun _ => ?_, fun hnot => ?_⟩
    · obtain ⟨compiled, hcompiled, heq⟩ := List.mem_map.mp hmem
      obtain ⟨hid, hcode⟩ := Prod.mk.inj heq
      exact ⟨compiled, by simpa using hcompiled, hid, congrArg some hcode.symm⟩
    · obtain ⟨body', hbody⟩ := (hmem_ids m.id).mp ⟨code, hmem⟩
      obtain ⟨p', c', m', howns', hcompiled, hid, -⟩ := exists_of_mem_bodies h hbody
      obtain ⟨-, -, rfl⟩ := howns'.eq_of_id_eq hctx howns hid
      rw [hnot] at hcompiled
      cases hcompiled

/-! ### A loaded batch -/

variable {staged : Context} {linked : CompiledBatch}

/-- How the methods of a loaded batch are changed from the staged ones. -/
def finish (bodies : List (SymbolId × Ir.Body)) (linked : CompiledBatch) (m : Method) : Method :=
  fill setCode (codeEntries linked) (fill setBody bodies m)

/-- Ids are positions in the staged tables of a batch that is loaded. -/
theorem Loads.indexed (hvm : vm.context.Indexed) (h : vm.Loads batch staged bodies linked vm') :
    staged.Indexed ∧ staged.published = vm.packages :=
  indexed_stage hvm h.stage

/-- The tables right before publication. -/
theorem Loads.final (hvm : vm.context.Indexed) (h : vm.Loads batch staged bodies linked vm') :
    withCode (withBodies staged bodies) linked = staged.mapStaged (finish bodies linked) := by
  obtain ⟨hindexed, hpublished⟩ := h.indexed hvm
  have hbodies := ((indexed_stage hvm h.stage).withBodies bodies).1
  rw [withCode_eq_mapStaged hbodies, withBodies_eq_mapStaged hindexed, Context.mapStaged_comp]
  rfl

/-- The packages after a load are those before and those of the batch. -/
theorem Loads.packages (hvm : vm.context.Indexed) (h : vm.Loads batch staged bodies linked vm') :
    vm'.packages =
      vm.packages ++ staged.staged.map (Package.mapMethods (finish bodies linked)) := by
  have hfinal := congrArg Context.staged (h.final hvm)
  obtain ⟨compiled, relocations, alloc, -, -, rfl⟩ := h.compile
  exact congrArg (vm.packages ++ ·) hfinal

/-- The code of a batch is that of the methods that are lowered. -/
theorem Loads.ids (h : vm.Loads batch staged bodies linked vm') :
    linked.methods.toList.map CompiledMethod.id = bodies.map Prod.fst := by
  obtain ⟨compiled, relocations, alloc, hcompiles, hlink, -⟩ := h.compile
  rw [(Linking.linked_of_link hlink).1.ids]
  exact hcompiles.ids

/-- What the staged method of a class becomes: its body is what it is lowered to and its code is
executable, and without bytecode it has neither. -/
structure Finishes (ctx : Context) (c : ClassTable) (m m' : Method) : Prop where
  kept : m' = { m with body := m'.body, code := m'.code }
  lowered : m.isCompiled = true → Lowering.lower ctx c m = .ok m'.body
  compiled : m.isCompiled = true → ∃ code, m'.code = some code ∧ code.executable = true
  empty : m.isCompiled = false → m'.body = m.body ∧ m'.code = m.code

theorem Finishes.isCompiled {m' : Method} (h : Finishes ctx c m m') :
    m'.isCompiled = m.isCompiled := by
  rw [h.kept]
  rfl

/-- What becomes of the methods of a batch that is loaded. -/
theorem Loads.finishes (hvm : vm.context.Indexed) (h : vm.Loads batch staged bodies linked vm')
    (howns : Owns staged p c m) : Finishes staged c m (finish bodies linked m) := by
  obtain ⟨hindexed, -⟩ := h.indexed hvm
  obtain ⟨compiled, relocations, alloc, -, hlink, -⟩ := h.compile
  obtain ⟨-, hexecutable⟩ := Linking.linked_of_link hlink
  obtain ⟨body, hbody, hlowered, hnobody⟩ := exists_body hindexed h.lower howns
  obtain ⟨code, hcode, hcompiled, hnocode⟩ := exists_code hindexed h.lower h.ids howns body
  have hfinish : finish bodies linked m = { m with body, code } := by
    rw [finish, hbody, hcode]
  rw [hfinish]
  refine ⟨rfl, hlowered, fun hm => ?_, fun hm => ⟨hnobody hm, hnocode hm⟩⟩
  obtain ⟨c', hc', -, rfl⟩ := hcompiled hm
  exact ⟨c'.code, rfl, hexecutable c' hc'⟩

end Vm

/-! ### Requests -/

/-- What may be asked of a machine. -/
inductive Request where
  | register (name : String) (address : UInt64)
  | load (batch : List PackageDecl)

namespace Vm

/-- The machine after a request. -/
def serve (vm : Vm) : Request → Vm
  | .register name address => vm.register name address
  | .load batch => (vm.load batch).1

/-- A batch that is loaded. -/
theorem serve_load_of_none {vm vm' : Vm} {batch : List PackageDecl}
    (h : vm.load batch = (vm', none)) : vm.serve (.load batch) = vm' :=
  congrArg Prod.fst h

/-- A batch that cannot be loaded leaves the machine as it was. -/
theorem serve_load_of_some {vm vm' : Vm} {batch : List PackageDecl} {e : LoadError}
    (h : vm.load batch = (vm', some e)) : vm.serve (.load batch) = vm :=
  (congrArg Prod.fst h).trans (eq_of_load_eq_some h)

/-- The machine after requests. -/
def serveAll (config : Config) (requests : List Request) : Vm := requests.foldl serve { config }

end Vm

end SlotJit.Engine

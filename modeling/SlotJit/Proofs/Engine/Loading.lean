import SlotJit.Engine.Vm
import SlotJit.Proofs.Tables.Ids

/-!
# Ids through loading

Loading a batch builds its tables after the published ones, fills in bodies and code, and publishes
it. No step moves a method, so the ids of all methods are their positions in every batch of every
machine that is made by registering native methods and loading batches.

## Main results

* `indexed_stage`, `indexed_load`: what staging and loading keep.
* `eq_of_load_eq_some`: a batch that is not loaded changes nothing.
* `positioned_of_reachable`: in every batch a method that is found by its name is found by its id.
-/

namespace SlotJit.Engine.Vm

open SlotJit.Codegen SlotJit.Tables

variable {vm vm' : Vm} {ctx : Context} {batch : List PackageDecl}

/-! ### Changes to the staged methods -/

/-- Ids are positions in a context that has the given packages published. -/
def Extends (published : Array Package) (ctx : Context) : Prop :=
  ctx.Indexed ∧ ctx.published = published

/-- Changing a staged method but for its id. -/
theorem Extends.modifyStaged {published : Array Package} (h : Extends published ctx)
    {f : Method → Method} (hf : ∀ m, (f m).id = m.id) (id : SymbolId) :
    Extends published (ctx.modifyStaged id f) := by
  refine ⟨h.1.modifyStaged hf id, ?_⟩
  rw [← h.2, Context.modifyStaged]
  split <;> rfl

/-- Filling in bodies moves no method. -/
theorem Extends.withBodies {published : Array Package} (h : Extends published ctx)
    (bodies : List (SymbolId × Ir.Body)) : Extends published (withBodies ctx bodies) := by
  unfold Vm.withBodies
  refine List.foldlRecOn bodies _ h fun ctx hctx a _ => ?_
  refine hctx.modifyStaged (fun m => ?_) a.1
  rfl

/-- Filling in code moves no method. -/
theorem Extends.withCode {published : Array Package} (h : Extends published ctx)
    (compiled : CompiledBatch) : Extends published (withCode ctx compiled) := by
  unfold Vm.withCode
  rw [← Array.foldl_toList]
  refine List.foldlRecOn compiled.methods.toList _ h fun ctx hctx a _ => ?_
  refine hctx.modifyStaged (fun m => ?_) a.id
  rfl

/-! ### Staging and loading -/

/-- Ids are positions in the tables of a batch beside the published ones. -/
theorem indexed_stage (hvm : vm.context.Indexed) (h : vm.stage batch = .ok ctx) :
    Extends vm.packages ctx := by
  unfold stage at h
  split at h
  · rename_i staged hstaged
    cases h
    refine ⟨fun index p hp => ?_, rfl⟩
    rw [Context.package?_eq] at hp
    by_cases hlt : index < vm.packages.size
    · rw [Array.getElem?_append_left hlt] at hp
      refine hvm index p ?_
      simpa [Context.package?_eq, context] using hp
    · rw [Array.getElem?_append_right (Nat.le_of_not_lt hlt)] at hp
      have hindexed := indexed_buildAll hstaged hp
      rwa [Nat.add_sub_cancel' (Nat.le_of_not_lt hlt)] at hindexed
  · cases h

/-- Ids are positions in a prepared batch. -/
theorem indexed_prepare {ids : List SymbolId} (hvm : vm.context.Indexed)
    (h : vm.prepare batch = .ok (ctx, ids)) : Extends vm.packages ctx := by
  unfold prepare at h
  split at h
  · cases h
  · obtain ⟨staged, hstaged, h⟩ := bind_eq_ok.mp h
    obtain ⟨bodies, -, h⟩ := bind_eq_ok.mp h
    cases h
    exact (indexed_stage hvm hstaged).withBodies bodies

/-- Ids are positions once a batch is published. -/
theorem indexed_linkAndPublish {c : Compilation} (hctx : Extends vm.packages ctx)
    (h : vm.linkAndPublish ctx c = (vm', none)) : vm'.context.Indexed := by
  unfold linkAndPublish at h
  repeat' split at h
  all_goals cases h
  rename_i linked _
  obtain ⟨hindexed, hpublished⟩ := hctx.withCode linked
  intro index p hp
  refine hindexed index p ?_
  rw [Context.package?_eq] at hp ⊢
  simpa [publish, context, hpublished] using hp

/-- A batch that is not loaded leaves the machine as it was. -/
theorem eq_of_load_eq_some {e : LoadError} (h : vm.load batch = (vm', some e)) : vm' = vm := by
  unfold load at h
  split at h
  · cases h
    rfl
  · unfold linkAndPublish at h
    repeat' split at h
    all_goals cases h
    all_goals rfl

/-- After a load ids are positions, whether it succeeds or not. -/
theorem indexed_load (hvm : vm.context.Indexed) (batch : List PackageDecl) :
    (vm.load batch).1.context.Indexed := by
  rcases hload : vm.load batch with ⟨vm', _ | e⟩
  · unfold load at hload
    split at hload
    · cases hload
    · rename_i hprepare
      exact indexed_linkAndPublish (indexed_prepare hvm hprepare) hload
  · rw [eq_of_load_eq_some hload]
    exact hvm

/-- The machines that are made by registering native methods and loading batches. -/
inductive Reachable : Vm → Prop where
  | initial (config : Config) : Reachable { config }
  | register {vm : Vm} (name : String) (address : UInt64) :
      Reachable vm → Reachable (vm.register name address)
  | load {vm : Vm} (batch : List PackageDecl) : Reachable vm → Reachable (vm.load batch).1

/-- In such a machine ids are positions. -/
theorem indexed_of_reachable (h : Reachable vm) : vm.context.Indexed := by
  induction h with
  | initial config =>
      intro index p hp
      rw [Context.package?_eq] at hp
      simp [context] at hp
  | register name address _ ih => exact ih
  | load batch _ ih => exact indexed_load ih batch

/-- In every batch of such a machine a method that is found by its name is found by its id. -/
theorem positioned_of_reachable (h : Reachable vm) (hstage : vm.stage batch = .ok ctx) :
    Positioned ctx :=
  positioned_of_indexed (indexed_stage (indexed_of_reachable h) hstage).1

end SlotJit.Engine.Vm

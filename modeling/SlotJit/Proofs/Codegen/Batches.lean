import SlotJit.Codegen.Batch
import SlotJit.Proofs.Tables.Ids

/-!
# Compiled batches

The methods of a batch are compiled one after the other, each into a region of its own
(`compiles_of_compileBatch`).
-/

namespace SlotJit.Codegen

open SlotJit.CodeMemory SlotJit.Tables SlotJit.X64

variable {ctx : Context} {natives : Natives} {alloc alloc' : Allocator}
  {methods : List CompiledMethod} {relocations : List Relocation}

/-! ### Compiling -/

/-- The methods of some ids are compiled in order, from one state of the allocator to another. -/
inductive Compiles (ctx : Context) (natives : Natives) : Allocator → List SymbolId →
    List CompiledMethod → List Relocation → Allocator → Prop where
  | nil (alloc : Allocator) : Compiles ctx natives alloc [] [] [] alloc
  | cons {first second last : Allocator} {id : SymbolId} {ids : List SymbolId} {method : Method}
      {compiled : CompiledMethod} {rest : List CompiledMethod}
      {relocations others : List Relocation}
      (found : ctx.method? id = some method)
      (compile : compileMethod ctx natives first id method = (second, .ok (compiled, relocations)))
      (tail : Compiles ctx natives second ids rest others last) :
      Compiles ctx natives first (id :: ids) (compiled :: rest) (relocations ++ others) last

/-- The remaining methods are compiled beside those already compiled. -/
theorem compiles_of_go {batch : CompiledBatch} {ids : List SymbolId}
    (h : (compileBatch.go ctx natives batch alloc ids).failure = none) :
    ∃ methods relocations, Compiles ctx natives alloc ids methods relocations
        (compileBatch.go ctx natives batch alloc ids).alloc ∧
      (compileBatch.go ctx natives batch alloc ids).batch =
        { methods := batch.methods ++ methods.toArray,
          relocations := batch.relocations ++ relocations } := by
  induction ids generalizing batch alloc with
  | nil => exact ⟨[], [], .nil alloc, by simp [compileBatch.go]⟩
  | cons id rest ih =>
      unfold compileBatch.go at h ⊢
      dsimp only at h ⊢
      split at h
      · cases h
      · rename_i method hfound
        split at h
        · cases h
        · rename_i second compiled relocations hcompile
          obtain ⟨methods, others, htail, hbatch⟩ := ih h
          refine ⟨compiled :: methods, relocations ++ others, ?_, ?_⟩
          · exact .cons hfound hcompile htail
          · simp [hbatch]

/-- What a batch that is compiled without a failure consists of. -/
theorem compiles_of_compileBatch {ids : List SymbolId}
    (h : (compileBatch ctx natives alloc ids).failure = none) :
    Compiles ctx natives alloc ids (compileBatch ctx natives alloc ids).batch.methods.toList
      (compileBatch ctx natives alloc ids).batch.relocations
      (compileBatch ctx natives alloc ids).alloc := by
  obtain ⟨methods, relocations, hcompiles, hbatch⟩ := compiles_of_go h
  have heq : (compileBatch ctx natives alloc ids).batch =
      { methods := #[] ++ methods.toArray, relocations := [] ++ relocations } := hbatch
  rw [heq, Array.empty_append, List.nil_append]
  exact hcompiles

/-- What the remaining methods are compiled to is added to what was compiled. -/
theorem go_of_compiles {ids : List SymbolId}
    (h : Compiles ctx natives alloc ids methods relocations alloc')
    (batch : CompiledBatch) : compileBatch.go ctx natives batch alloc ids =
      { batch := { methods := batch.methods ++ methods.toArray,
                   relocations := batch.relocations ++ relocations }, alloc := alloc' } := by
  induction h generalizing batch with
  | nil => simp [compileBatch.go]
  | cons found compile _ ih => simp [compileBatch.go, found, compile, ih]

/-- Methods that can be compiled in order make up a batch. -/
theorem compileBatch_of_compiles {ids : List SymbolId}
    (h : Compiles ctx natives alloc ids methods relocations alloc') :
    compileBatch ctx natives alloc ids =
      { batch := { methods := methods.toArray, relocations }, alloc := alloc' } := by
  rw [compileBatch, go_of_compiles h, Array.empty_append, List.nil_append]

/-- Why compiling the remaining methods stops. -/
theorem exists_of_go_failure {batch : CompiledBatch} {ids : List SymbolId} {failure : Failure}
    (h : (compileBatch.go ctx natives batch alloc ids).failure = some failure) :
    ∃ id ∈ ids, failure.method = ctx.qualifiedName id ∧
      (ctx.method? id = none ∨ ∃ method alloc', ctx.method? id = some method ∧
        (compileMethod ctx natives alloc' id method).2 = .error failure.cause) := by
  induction ids generalizing batch alloc with
  | nil => cases h
  | cons id rest ih =>
      unfold compileBatch.go at h
      dsimp only at h
      split at h
      · rename_i hnone
        cases h
        exact ⟨id, List.mem_cons_self, rfl, .inl hnone⟩
      · rename_i method hfound
        split at h
        · rename_i cause herror
          cases h
          exact ⟨id, List.mem_cons_self, rfl, .inr ⟨method, alloc, hfound, by rw [herror]⟩⟩
        · obtain ⟨id', hid', hstops⟩ := ih h
          exact ⟨id', List.mem_cons_of_mem _ hid', hstops⟩

/-- A batch that is not compiled has a method that is not found or cannot be compiled. -/
theorem exists_of_failure {ids : List SymbolId} {failure : Failure}
    (h : (compileBatch ctx natives alloc ids).failure = some failure) :
    ∃ id ∈ ids, failure.method = ctx.qualifiedName id ∧
      (ctx.method? id = none ∨ ∃ method alloc', ctx.method? id = some method ∧
        (compileMethod ctx natives alloc' id method).2 = .error failure.cause) :=
  exists_of_go_failure h

/-- The code of a method is assembled exactly if it is not empty, has pieces and can be linked. -/
theorem assembleMethod_eq_ok_iff {method : Method} {pieces : List Piece} {linked : Assembly}
    {size : Nat} : assembleMethod ctx natives method = .ok (pieces, linked, size) ↔
      method.body.code.isEmpty = false ∧
        bodyPieces ⟨ctx, natives, method.body.frameSlots⟩ method.body.code = .ok pieces ∧
        (Assembly.mk (pieces.map Piece.item).toArray).link = (linked, .ok size) := by
  constructor
  · intro h
    unfold assembleMethod at h
    split at h
    · cases h
    · rename_i hcode
      obtain ⟨pieces, hpieces, h⟩ := bind_eq_ok.mp h
      split at h
      · cases h
      · cases h
        exact ⟨Bool.eq_false_iff.mpr hcode, hpieces, ‹_›⟩
  · rintro ⟨hcode, hpieces, hlink⟩
    simp only [assembleMethod, hcode, hpieces, hlink, Bool.false_eq_true, if_false, bind,
      Except.bind, pure, Except.pure]

/-- A method is compiled exactly if its code is assembled, allocated and written. -/
theorem compileMethod_eq_ok_iff {id : SymbolId} {method : Method} {compiled : CompiledMethod} :
    compileMethod ctx natives alloc id method = (alloc', .ok (compiled, relocations)) ↔
      ∃ pieces linked size region, assembleMethod ctx natives method = .ok (pieces, linked, size) ∧
        Allocates alloc size region alloc' ∧
        region.write 0 linked.bytes = (compiled.code, none) ∧ compiled.id = id ∧
        relocations = relocationsOf method.id pieces linked.items.toList := by
  constructor
  · intro h
    unfold compileMethod at h
    split at h
    · cases h
    · rename_i pieces linked size hassembled
      split at h
      · cases h
      · rename_i region hallocate
        split at h
        · cases h
        · rename_i hwrite
          cases h
          exact ⟨pieces, linked, size, region, hassembled, allocate_eq_ok_iff.mp hallocate, hwrite,
            rfl, rfl⟩
  · rintro ⟨pieces, linked, size, region, hassembled, hallocates, hwritten, rfl, rfl⟩
    simp only [compileMethod, hassembled, allocate_eq_ok_iff.mpr hallocates, hwritten]

/-- The code of a method has the id that was asked for. -/
theorem id_of_compileMethod {id : SymbolId} {method : Method} {compiled : CompiledMethod}
    (h : compileMethod ctx natives alloc id method = (alloc', .ok (compiled, relocations))) :
    compiled.id = id := by
  obtain ⟨-, -, -, -, -, -, -, hid, -⟩ := compileMethod_eq_ok_iff.mp h
  exact hid

/-- The methods compiled are those of the ids. -/
theorem Compiles.ids {ids : List SymbolId}
    (h : Compiles ctx natives alloc ids methods relocations alloc') :
    methods.map CompiledMethod.id = ids := by
  induction h with
  | nil => rfl
  | cons found compile _ ih => rw [List.map_cons, ih, id_of_compileMethod compile]

end SlotJit.Codegen

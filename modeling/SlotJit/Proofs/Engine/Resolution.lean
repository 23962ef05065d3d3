import SlotJit.Proofs.Codegen.Acceptance
import SlotJit.Proofs.Codegen.Relocations
import SlotJit.Proofs.Tables.Views

/-!
# Resolution

The stages of a load read packages in three ways: lowering finds a callee by its names, code
generation finds it by its id, and a native one by its full name. All of these give the same
declaration in every context that another one precedes. So what is lowered or compiled in a context
stays as it is when more packages follow, and when what was staged is published.

## Main results

* `lower_of_precedes`: a method is lowered to the same body.
* `bodyPieces_of_precedes`: a body has the same code.
* `alike_of_compileMethod`: a method is compiled to the same bytes, wherever they are placed.
-/

namespace SlotJit.Lowering

open SlotJit.Bytecode SlotJit.Codegen SlotJit.Ir SlotJit.Semantics SlotJit.Tables

/-! ### Lowering -/

section

variable {site : Site} {ctx : Context} {pc : Nat} {s t : State}

/-- A call is lowered to the same instruction, as the callee has the same declaration. -/
theorem yields_lowerInvoke_of_precedes (h : site.context.Precedes ctx) {index : UInt16} {a : Unit}
    (hyields : Yields (lowerInvoke site pc index) s a t) :
    Yields (lowerInvoke { site with context := ctx } pc index) s a t := by
  unfold lowerInvoke at hyields ⊢
  cases hconstant : site.constants.get? index with
  | none =>
      rw [hconstant] at hyields
      exact absurd hyields yields_throw
  | some constant =>
      cases constant with
      | methodRef member =>
          simp only [hconstant] at hyields ⊢
          cases hfound :
            site.context.findMethod? member.className member.name member.descriptor with
          | none =>
              rw [hfound] at hyields
              exact absurd hyields yields_throw
          | some callee =>
              obtain ⟨callee', hfound', hdeclared⟩ := h.findMethod? hfound
              obtain ⟨body, code, rfl⟩ := Method.exists_of_declared hdeclared
              rw [hfound] at hyields
              rw [hfound']
              exact hyields
      | _ =>
          rw [hconstant] at hyields
          exact absurd hyields yields_throw

/-- An instruction is lowered in the same way. Only calls read the packages. -/
theorem yields_lowerInstr_of_precedes (h : site.context.Precedes ctx) {l : Located} {flow : Flow}
    (hyields : Yields (lowerInstr site l) s flow t) :
    Yields (lowerInstr { site with context := ctx } l) s flow t := by
  unfold lowerInstr at hyields ⊢
  cases hinstr : l.instr with
  | invokeStatic index =>
      rw [hinstr] at hyields
      obtain ⟨a, u, hinvoke, hpure⟩ := yields_bind.mp hyields
      exact yields_bind.mpr ⟨a, u, yields_lowerInvoke_of_precedes h hinvoke, hpure⟩
  | _ =>
      rw [hinstr] at hyields
      exact hyields

/-- Instructions are lowered in the same way. -/
theorem yields_forM_of_precedes (h : site.context.Precedes ctx) {instrs : List Located} {a : Unit}
    (hyields : Yields (instrs.forM (lowerAt site)) s a t) :
    Yields (instrs.forM (lowerAt { site with context := ctx })) s a t := by
  induction instrs generalizing s with
  | nil => exact yields_pure.mpr (yields_pure.mp hyields)
  | cons l rest ih =>
      obtain ⟨u, hfirst, hrest⟩ := yields_forM_cons.mp hyields
      obtain ⟨v, w, flow, henter, hlower, hresume⟩ := yields_lowerAt.mp hfirst
      refine yields_forM_cons.mpr ⟨u, yields_lowerAt.mpr ⟨v, w, flow, henter, ?_, hresume⟩,
        ih hrest⟩
      exact yields_lowerInstr_of_precedes h hlower

end

variable {ctx ctx' : Context}

/-- A method is lowered to the same body where more packages follow. -/
theorem lower_of_precedes (h : ctx.Precedes ctx') {owner : ClassTable} {method : Method}
    {body : Body}
    (hlower : lower ctx owner method = .ok body) : lower ctx' owner method = .ok body := by
  unfold lower at hlower ⊢
  split at hlower
  · cases hlower
  · rename_i stream hscan
    obtain ⟨⟨⟨⟩, fin⟩, hlowered, hlower⟩ := bind_eq_ok.mp hlower
    have hlowered' :
        Yields (stream.instrs.forM (lowerAt (.of ctx' owner method stream))) {} () fin :=
      @yields_forM_of_precedes (.of ctx owner method stream) ctx' _ _ h _ _ hlowered
    exact bind_eq_ok.mpr ⟨((), fin), hlowered', hlower⟩

/-- What an operation is depends on the declarations of callees alone. -/
theorem operation?_of_precedes (h : ctx.Precedes ctx') {kind : Kind} {args operands : List Operand}
    {op : Operation} (hop : operation? ctx kind args = some (op, operands)) :
    operation? ctx' kind args = some (op, operands) := by
  have hcall : ∀ id native rest, operation?.call ctx id native rest = some (op, operands) →
      operation?.call ctx' id native rest = some (op, operands) := by
    intro id native rest hop
    obtain ⟨callee, hfound, hcallee⟩ := Option.map_eq_some_iff.mp hop
    obtain ⟨callee', hfound', hdeclared⟩ := h.method? hfound
    obtain ⟨body, code, rfl⟩ := Method.exists_of_declared hdeclared
    rw [operation?.call, hfound', Option.map_some, ← hcallee]
  cases kind with
  | callStatic =>
      obtain ⟨id, rest, rfl, hop⟩ := exists_call_of_operation (.inl rfl) hop
      exact hcall _ _ _ hop
  | callNative =>
      obtain ⟨id, rest, rfl, hop⟩ := exists_call_of_operation (.inr rfl) hop
      exact hcall _ _ _ hop
  | _ => exact hop

/-- An instruction has the right form in every context that finds as much. -/
theorem Formed.of_precedes (h : ctx.Precedes ctx') {kind : Kind} {dst : Option Operand}
    {args : List Operand} (hformed : Formed ctx kind dst args) : Formed ctx' kind dst args := by
  cases hformed with
  | move hsrc => exact .move hsrc
  | operation op hop hoperands hdst hwords =>
      exact .operation op (operation?_of_precedes h hop) hoperands hdst hwords
  | compare ty ha hb => exact .compare ty ha hb
  | ret hargs => exact .ret hargs

end SlotJit.Lowering

namespace SlotJit.Codegen

open SlotJit.CodeMemory SlotJit.Ir SlotJit.Tables SlotJit.X64

/-! ### Code generation -/

section

variable {site : Site} {ctx : Context} {inst : Inst} {code : List Piece}

/-- The callee of a call has the same declaration and the same full name. -/
theorem exists_calleeOf_of_precedes (hctx : site.context.Indexed) (h : site.context.Precedes ctx)
    {callee : Method} (hcallee : calleeOf site inst = .ok callee) :
    ∃ body code, calleeOf { site with context := ctx } inst = .ok { callee with body, code } ∧
      ctx.qualifiedName callee.id = site.context.qualifiedName callee.id := by
  unfold calleeOf at hcallee ⊢
  split at hcallee
  · rename_i id hhead
    split at hcallee
    · rename_i method hfound
      cases hcallee
      obtain ⟨callee', hfound', hdeclared⟩ := h.method? hfound
      obtain ⟨body, code, rfl⟩ := Method.exists_of_declared hdeclared
      refine ⟨body, code, by simp only [hfound'], ?_⟩
      rw [hctx.id_of_method? hfound]
      exact h.qualifiedName hfound
    · cases hcallee
  · cases hcallee

/-- The code of an instruction is the same. Only calls read the packages. -/
theorem template_of_precedes (hctx : site.context.Indexed) (h : site.context.Precedes ctx)
    {fresh : Nat} (htemplate : template site fresh inst = .ok code) :
    template { site with context := ctx } fresh inst = .ok code := by
  unfold template at htemplate ⊢
  cases hkind : inst.kind with
  | callStatic =>
      rw [hkind] at htemplate
      obtain ⟨callee, hcallee, htemplate⟩ := bind_eq_ok.mp htemplate
      obtain ⟨body, code', hcallee', -⟩ := exists_calleeOf_of_precedes hctx h hcallee
      exact bind_eq_ok.mpr ⟨_, hcallee', htemplate⟩
  | callNative =>
      rw [hkind] at htemplate
      obtain ⟨callee, hcallee, htemplate⟩ := bind_eq_ok.mp htemplate
      obtain ⟨body, code', hcallee', hname⟩ := exists_calleeOf_of_precedes hctx h hcallee
      refine bind_eq_ok.mpr ⟨_, hcallee', ?_⟩
      simp only [hname]
      exact htemplate
  | _ =>
      rw [hkind] at htemplate
      exact htemplate

/-- The code of instructions is the same. -/
theorem instructionPieces_of_precedes (hctx : site.context.Indexed) (h : site.context.Precedes ctx)
    {labels : Std.HashSet Nat} {index fresh : Nat} {insts : List Inst}
    (hpieces : instructionPieces site labels index fresh insts = .ok code) :
    instructionPieces { site with context := ctx } labels index fresh insts = .ok code := by
  induction insts generalizing index fresh code with
  | nil => exact hpieces
  | cons inst rest ih =>
      obtain ⟨first, htemplate, hpieces⟩ := bind_eq_ok.mp hpieces
      obtain ⟨others, hothers, hpieces⟩ := bind_eq_ok.mp hpieces
      exact bind_eq_ok.mpr ⟨first, template_of_precedes hctx h htemplate,
        bind_eq_ok.mpr ⟨others, ih hothers, hpieces⟩⟩

/-- A body has the same code where more packages follow. -/
theorem bodyPieces_of_precedes (hctx : site.context.Indexed) (h : site.context.Precedes ctx)
    {insts : List Inst} (hpieces : bodyPieces site insts = .ok code) :
    bodyPieces { site with context := ctx } insts = .ok code := by
  obtain ⟨check, hcheck, hpieces⟩ := bind_eq_ok.mp hpieces
  obtain ⟨body, hbody, hpieces⟩ := bind_eq_ok.mp hpieces
  exact bind_eq_ok.mpr ⟨check, hcheck,
    bind_eq_ok.mpr ⟨body, instructionPieces_of_precedes hctx h hbody, hpieces⟩⟩

end

variable {ctx ctx' : Context} {natives : Natives} {alloc alloc' after after' : Allocator}
  {id id' : SymbolId} {method method' : Method} {compiled compiled' : CompiledMethod}
  {relocations relocations' : List Relocation}

/-- A method is compiled to the same bytes with the same relocations where more packages follow,
wherever they are placed. -/
theorem alike_of_compileMethod (hctx : ctx.Indexed) (h : ctx.Precedes ctx')
    (hmethod : method'.id = method.id) (hbody : method'.body = method.body)
    (hcompile : compileMethod ctx natives alloc id method = (after, .ok (compiled, relocations)))
    (hcompile' : compileMethod ctx' natives alloc' id' method' =
      (after', .ok (compiled', relocations'))) :
    relocations' = relocations ∧ compiled'.code.size = compiled.code.size ∧
      ∀ position, compiled'.code.byte position = compiled.code.byte position := by
  obtain ⟨pieces, linked, region, hpieces, hlink, hallocates, hwrite, rfl⟩ :=
    link_of_compileMethod hcompile
  obtain ⟨pieces', linked', region', hpieces', hlink', hallocates', hwrite', rfl⟩ :=
    link_of_compileMethod hcompile'
  have hsame := bodyPieces_of_precedes hctx h hpieces
  rw [hbody] at hpieces'
  cases hsame.symm.trans hpieces'
  cases hlink.symm.trans hlink'
  have hregion := hallocates.region
  have hregion' := hallocates'.region
  refine ⟨by rw [hmethod], ?_, fun position => ?_⟩
  · rw [(Region.frame_of_write hwrite).2.1, (Region.frame_of_write hwrite').2.1, hregion, hregion']
  · rw [Region.byte_write hwrite, Region.byte_write hwrite', hregion, hregion']
    rfl

end SlotJit.Codegen

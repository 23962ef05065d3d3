import SlotJit.Proofs.Codegen.Correctness
import SlotJit.Proofs.Engine.Installed

/-!
# What loaded code means

The tables of a batch are built after those of the packages that were loaded before, and ids are
positions in all of them. So the body of each method of the batch does what its bytecode does. If
the body is of the integer and control core, linking has nothing to fill in, and the code that the
machine executes does what the body does. Put together, the code does what the bytecode does.

## Main results

* `Installed.exists_assembled`: the code of a published method of the core.
* `load_preserves_meaning`: the methods of a loaded batch.
-/

namespace SlotJit.Engine.Vm

open SlotJit.CodeMemory SlotJit.Codegen SlotJit.Ir SlotJit.Linking SlotJit.Lowering SlotJit.Machine
  SlotJit.Semantics SlotJit.Tables

variable {vm vm' : Vm} {batch : List PackageDecl} {staged : Context}
  {bodies : List (SymbolId × Body)} {linked : CompiledBatch} {p : Package} {owner : ClassTable}
  {m method : Method} {region : Region}

/-- Where no code address is loaded, nothing is filled in. -/
theorem map_fill_eq_self {pieces : List Piece} {address : SymbolId → Option UInt64}
    (h : ∀ callee, .loadCode callee ∉ pieces) : pieces.map (Piece.fill address) = pieces := by
  have hfill : ∀ p ∈ pieces, p.fill address = p := by
    intro p hp
    cases p with
    | loadCode callee => exact absurd hp (h callee)
    | instr | jump | label => rfl
  rw [List.map_congr_left hfill, List.map_id']

/-- The code of a published method of the core is its own pieces, in place. -/
theorem Installed.exists_assembled {site : Codegen.Site} {pieces : List Piece}
    {start offset : Nat → Nat} (h : Installed vm site method region pieces start offset)
    (hcore : ∀ inst ∈ method.body.code, inst.kind.isCore = true) (hsize : region.size < 2 ^ 31) :
    ∃ start, Assembled method.body region pieces offset start site := by
  obtain ⟨ctx, owner, declared, hlower⟩ := h.lowered
  have hplaced := h.placed
  rw [map_fill_eq_self (loadCode_notMem hcore h.body)] at hplaced
  exact exists_assembled_of_placed hlower hcore h.frameSlots h.body hplaced hsize

/-- A method with bytecode is published by the load of its batch, with the body that it is lowered
to and with code. -/
theorem Loads.exists_published (hvm : vm.context.Indexed)
    (h : vm.Loads batch staged bodies linked vm')
    (howns : Owns staged p owner m) (hm : m.isCompiled = true) :
    ∃ method region, vm'.method? m.id = some method ∧ method.code = some region ∧
      Lowering.lower staged owner m = .ok method.body := by
  obtain ⟨hindexed, hpublished⟩ := h.indexed hvm
  obtain ⟨hstaged, hfound⟩ := howns.method? hindexed
  have hfinishes := h.finishes hvm howns
  obtain ⟨region, hregion, -⟩ := hfinishes.compiled hm
  refine ⟨_, region, ?_, hregion, hfinishes.lowered hm⟩
  rw [h.method?_of_staged hvm (hpublished ▸ hstaged), hfound, Option.map_some]

/-- **Loaded code does what its bytecode does.** On a machine that served any requests, let a batch
be loaded. Each method of the batch that has bytecode is published with a body and with code. The
body does what the bytecode does: the stack machine and the slot machine go on together by a
schedule. If all instructions of the body are of the core and its code is in reach of a jump, then
the native machine, which executes all code that is loaded, goes on together with the stack machine:
after each step there is a state of the slot machine that agrees with the one and that the other
follows, and the two return the same value or come to the end together. -/
theorem load_preserves_meaning (config : Config) (requests : List Request)
    (hload : (serveAll config requests).load batch = (vm', none)) :
    ∃ staged, (serveAll config requests).stage batch = .ok staged ∧
      ∀ p owner m, Owns staged p owner m → m.isCompiled = true →
        ∃ method region, vm'.method? m.id = some method ∧ method.code = some region ∧
        (∃ place : Nat → Nat, ∀ (env : Environment) (locals frame : Frame),
          (∀ i < m.maxLocals.toNat, frame i = locals i) →
            ∃ schedule : Nat → Nat, (∀ n, schedule n ≤ schedule (n + 1)) ∧
              (∀ k, ∃ n, k ≤ schedule n) ∧ ∀ n, Step.Related
                (fun st sl => sl.index = place st.pc ∧ Agree m.maxLocals.toNat st sl)
                (SameEnd m.maxLocals.toNat)
                (run (StackMachine.step (.of staged owner m) env) n (StackMachine.start locals))
                (run (SlotMachine.step staged env method.body) (schedule n)
                  (SlotMachine.start frame))) ∧
        ((∀ inst ∈ method.body.code, inst.kind.isCore = true) → region.size < 2 ^ 31 →
          ∃ place : Nat → Nat, ∀ (hosts : Hosts) (env : Environment) (base : Nat)
              (locals frame : Frame)
              (s : Machine.State), (∀ i < m.maxLocals.toNat, frame i = locals i) →
            Entered base method.body.frameSlots frame region s →
              ∃ schedule : Nat → Nat, (∀ n, schedule n ≤ schedule (n + 1)) ∧
                (∀ k, ∃ n, k ≤ schedule n) ∧ ∀ n, Step.Related
                  (fun st t => ∃ sl, Agree m.maxLocals.toNat st sl ∧
                    Follows method.body region place base s sl t)
                  (fun outcome st ending t => ∃ sl, Agree m.maxLocals.toNat st sl ∧
                    SameEnding method.body base s outcome sl ending t)
                  (run (StackMachine.step (.of staged owner m) env) n (StackMachine.start locals))
                  (run (NativeMachine.step hosts vm'.code region) (schedule n) s)) := by
  obtain ⟨staged, bodies, linked, hloads⟩ := exists_of_load hload
  have hreachable := reachable_serveAll config requests
  have hctx := positioned_of_reachable hreachable hloads.stage
  have hlaid : vm'.Laid := by
    have hserved := laid config (requests ++ [.load batch])
    rwa [serveAll_concat, serve_load_of_none hload] at hserved
  refine ⟨staged, hloads.stage, fun p owner m howns hm => ?_⟩
  obtain ⟨method, region, hfound, hregion, hlower⟩ :=
    hloads.exists_published (indexed_of_reachable hreachable) howns hm
  obtain ⟨stream, fin, hlowers⟩ := lowers_of_lower hctx hlower
  refine ⟨method, region, hfound, hregion,
    ⟨fin.place, fun env locals frame hframe => hlowers.exists_schedule hframe env⟩,
    fun hcore hsize => ?_⟩
  obtain ⟨-, site, pieces, start, offset, hinstalled⟩ :=
    hlaid.methods m.id method region hfound hregion
  obtain ⟨start, hassembled⟩ := hinstalled.exists_assembled hcore hsize
  refine ⟨fun i => offset (start i), fun hosts env base locals frame s hframe hentered => ?_⟩
  obtain ⟨first, hmono, hunbounded, hfirst⟩ := hlowers.exists_schedule hframe env
  obtain ⟨second, hmono', hunbounded', hsecond⟩ :=
    hassembled.exists_schedule hinstalled.shows hentered (hlowers.run_ne_stuck env frame) hosts
  have hmonotone : Monotone second := monotone_nat_of_le_succ hmono'
  refine ⟨fun n => second (first n), fun n => hmonotone (hmono n), fun k => ?_, fun n => ?_⟩
  · obtain ⟨j, hj⟩ := hunbounded' k
    obtain ⟨n, hn⟩ := hunbounded j
    exact ⟨n, Nat.le_trans hj (hmonotone hn)⟩
  · refine ((hfirst n).trans (hsecond (first n))).imp ?_ ?_
    · rintro st t ⟨sl, ⟨-, hagree⟩, hfollows⟩
      exact ⟨sl, hagree, hfollows⟩
    · rintro outcome st ending t ⟨outcome', sl, ⟨rfl, hagree⟩, hending⟩
      exact ⟨sl, hagree, hending⟩

end SlotJit.Engine.Vm

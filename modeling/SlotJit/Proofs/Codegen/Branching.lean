import SlotJit.Proofs.Codegen.Execution
import SlotJit.Proofs.Codegen.Success

/-!
# Code with jumps of its own

The templates of divisions and conversions have labels and jumps of their own. `Reaches` says how
control goes through such pieces, from one of them to another: an instruction goes on to the next
piece, a label does nothing, and a jump goes to the piece of its label if its condition holds.
Addresses play no part in it. Where the pieces are in place in a region, the native machine does the
same with the instructions that the processor reads there (`Fragment.run_reaches`).

A fragment is a few pieces long and an instruction a few bytes (`Compact`), so its jumps are never
too far, however large the region is.

## Main results

* `Fragment.run_reaches`: the native machine goes through a fragment.
* `Fragment.run_trap`: an instruction of a fragment traps.
* `Fragment.run_stores`: a fragment computes and stores a result.
* `exists_codeAt`: every instruction of a compiled method has its code.
-/

namespace SlotJit.Codegen

open SlotJit.CodeMemory SlotJit.Ir SlotJit.Machine SlotJit.Semantics SlotJit.Tables SlotJit.X64

/-! ### Control among pieces -/

/-- Control gets from one piece to another and one state is taken to another, the instruction
pointer aside. -/
inductive Reaches (code : List Piece) : Nat → State → Nat → State → Prop
  | refl (i : Nat) (s : State) : Reaches code i s i s
  | instr {i j : Nat} {s t u : State} {instr : Instr} (piece : code[i]? = some (.instr instr))
      (exec : ∀ hosts rip, execute hosts { s with rip } instr = .next { t with rip })
      (rest : Reaches code (i + 1) t j u) : Reaches code i s j u
  | label {i j id : Nat} {s u : State} (piece : code[i]? = some (.label id))
      (rest : Reaches code (i + 1) s j u) : Reaches code i s j u
  | jump {i j k target : Nat} {cond : Option Cond} {s u : State}
      (piece : code[i]? = some (.jump cond target)) (label : code[k]? = some (.label target))
      (rest : Reaches code (if cond.all s.flags.holds = true then k else i + 1) s j u) :
      Reaches code i s j u

namespace Reaches

variable {code front back : List Piece} {i j k target : Nat} {cond : Option Cond} {s t u : State}

/-- Control goes on from where it is. -/
theorem trans (h : Reaches code i s j t) (h' : Reaches code j t k u) : Reaches code i s k u := by
  induction h with
  | refl => exact h'
  | instr piece exec _ ih => exact .instr piece exec (ih h')
  | label piece _ ih => exact .label piece (ih h')
  | jump piece label _ ih => exact .jump piece label (ih h')

/-- A jump whose condition holds. -/
theorem taken (piece : code[i]? = some (.jump cond target))
    (label : code[k]? = some (.label target))
    (hcond : cond.all s.flags.holds = true) (rest : Reaches code k s j u) : Reaches code i s j u :=
  .jump piece label (by rwa [if_pos hcond])

/-- A jump whose condition does not hold. -/
theorem missed (piece : code[i]? = some (.jump cond target))
    (label : code[k]? = some (.label target))
    (hcond : cond.all s.flags.holds = false) (rest : Reaches code (i + 1) s j u) :
    Reaches code i s j u :=
  .jump piece label (by rwa [if_neg (by rw [hcond]; exact Bool.false_ne_true)])

/-- More pieces behind change nothing. -/
theorem append_right (h : Reaches front i s j t) (back : List Piece) :
    Reaches (front ++ back) i s j t := by
  have hget {p : Piece} {i : Nat} (hp : front[i]? = some p) : (front ++ back)[i]? = some p := by
    rw [List.getElem?_append_left (List.getElem?_eq_some_iff.mp hp).1, hp]
  induction h with
  | refl => exact .refl _ _
  | instr piece exec _ ih => exact .instr (hget piece) exec ih
  | label piece _ ih => exact .label (hget piece) ih
  | jump piece label _ ih => exact .jump (hget piece) (hget label) ih

/-- More pieces in front move all pieces. -/
theorem append_left (h : Reaches back i s j t) (front : List Piece) :
    Reaches (front ++ back) (front.length + i) s (front.length + j) t := by
  have hget (i : Nat) : (front ++ back)[front.length + i]? = back[i]? := by
    rw [List.getElem?_append_right (Nat.le_add_right _ _), Nat.add_sub_cancel_left]
  induction h with
  | refl => exact .refl _ _
  | instr piece exec _ ih => exact .instr ((hget _).trans piece) exec ih
  | label piece _ ih => exact .label ((hget _).trans piece) ih
  | jump piece label _ ih =>
      refine .jump ((hget _).trans piece) ((hget _).trans label) ?_
      rw [apply_ite (front.length + ·)] at ih
      exact ih

end Reaches

/-- Straight code gets control to its end. -/
theorem Leads.reaches {pieces : List Piece} {s t : State} (h : Leads pieces s t) :
    Reaches pieces 0 s pieces.length t := by
  obtain ⟨instrs, rfl, hstraight⟩ := h
  induction hstraight with
  | nil s => exact .refl 0 s
  | @cons i is s t u head tail ih =>
      refine .instr rfl head ?_
      have hrest := ih.append_left [Piece.instr i]
      rw [List.length_singleton, Nat.add_comm 1, Nat.add_comm 1] at hrest
      exact hrest

/-! ### Fragments in place -/

/-- Some pieces are in place in a region that can be executed, each at an offset; they may have
others around them. -/
structure Fragment (code : CodeMap) (region : Region) (part : List Piece)
    (place : Nat → Nat) : Prop where
  shows : code.Shows region
  placed : ∃ pieces offset k, Placed pieces offset region ∧ part <+: pieces.drop k ∧
    ∀ i, place i = offset (k + i)

/-- At most so many pieces, and none of them loads a code address. -/
structure Compact (n : Nat) (part : List Piece) : Prop where
  sized : ∀ p ∈ part, ∀ callee, p ≠ .loadCode callee
  length_le : part.length ≤ n

/-- Short pieces after short pieces. -/
theorem Compact.append {m n : Nat} {front back : List Piece} (h : Compact m front)
    (h' : Compact n back) : Compact (m + n) (front ++ back) := by
  refine ⟨fun p hp => ?_, ?_⟩
  · rcases List.mem_append.mp hp with hp | hp
    · exact h.sized p hp
    · exact h'.sized p hp
  · rw [List.length_append]
    exact Nat.add_le_add h.length_le h'.length_le

/-- One instruction is short. -/
theorem compact_instr (i : Instr) : Compact 1 [.instr i] := by
  refine ⟨fun p hp callee => ?_, Nat.le_refl 1⟩
  rw [List.mem_singleton.mp hp]
  exact Piece.noConfusion

/-- Loading an operand is short. -/
theorem compact_load {inst : Inst} {ty : ValueType} {reg : Reg} {operand : Operand}
    {pieces : List Piece} (h : load inst ty reg operand = .ok pieces) : Compact 1 pieces := by
  obtain ⟨i, rfl⟩ := exists_instr_of_load h
  exact compact_instr i

/-- Storing a result is short. -/
theorem compact_store {inst : Inst} {ty : ValueType} {reg : Reg} {pieces : List Piece}
    (h : store inst ty reg = .ok pieces) : Compact 1 pieces := by
  obtain ⟨index, -, h⟩ := bind_eq_ok.mp h
  obtain ⟨disp, -, h⟩ := bind_eq_ok.mp h
  cases h
  exact compact_instr _

namespace Placed

variable {pieces part : List Piece} {offset : Nat → Nat} {region : Region} {k : Nat}

/-- A piece takes no more room than an instruction. -/
theorem offset_succ_le (h : Placed pieces offset region) {p : Piece} (hp : pieces[k]? = some p)
    (hsized : ∀ callee, p ≠ .loadCode callee) : offset (k + 1) ≤ offset k + maxInstrLength := by
  cases p with
  | loadCode callee => exact absurd rfl (hsized callee)
  | label id =>
      rw [h.label k id hp]
      exact Nat.le_add_right _ _
  | instr i =>
      have hend := (h.instr k i hp).2
      have := length_encode_le i
      omega
  | jump cond target =>
      obtain ⟨j, hj⟩ := h.bound k cond target hp
      obtain ⟨i, hreads, -⟩ := h.jump k cond target j hp hj
      have hend := hreads.2
      have := length_encode_le i
      omega

/-- The pieces of a fragment are at no great distance from its start. -/
theorem offset_add_le (h : Placed pieces offset region) (hpart : part <+: pieces.drop k) {n : Nat}
    (hcompact : Compact n part) {i : Nat} (hi : i ≤ part.length) :
    offset k ≤ offset (k + i) ∧ offset (k + i) ≤ offset k + maxInstrLength * i := by
  induction i with
  | zero => exact ⟨Nat.le_refl _, Nat.le_refl _⟩
  | succ i ih =>
      obtain ⟨hlow, hhigh⟩ := ih (Nat.le_of_succ_le hi)
      have hp := getElem?_of_isPrefix_drop hpart (List.getElem?_eq_getElem hi)
      have hlt : k + i < pieces.length := (List.getElem?_eq_some_iff.mp hp).1
      have hnext := h.next (k + i) hlt
      have hsucc := h.offset_succ_le hp (hcompact.sized _ (List.getElem_mem hi))
      rw [Nat.add_assoc] at hnext hsucc
      rw [Nat.mul_succ]
      omega

/-- Pieces of a compact fragment are near each other. -/
theorem near_of_compact (h : Placed pieces offset region) (hpart : part <+: pieces.drop k) {n : Nat}
    (hcompact : Compact n part) (hn : n < 2 ^ 20) {i j : Nat} (hi : i ≤ part.length)
    (hj : j ≤ part.length) : Near (offset (k + i)) (offset (k + j)) := by
  obtain ⟨hi₁, hi₂⟩ := h.offset_add_le hpart hcompact hi
  obtain ⟨hj₁, hj₂⟩ := h.offset_add_le hpart hcompact hj
  have hlength := hcompact.length_le
  unfold maxInstrLength at hi₂ hj₂
  constructor <;> omega

end Placed

namespace Fragment

variable {code : CodeMap} {region : Region} {part : List Piece} {place : Nat → Nat} {i j n : Nat}
  {s t : State} {hosts : Hosts}

/-- An instruction of a fragment is executed where it is. -/
theorem step_instr (h : Fragment code region part place) {instr : Instr}
    (hinstr : part[i]? = some (.instr instr)) (hne : instr ≠ returnJump) (hosts : Hosts)
    (s : State) :
    NativeMachine.step hosts code region { s with rip := regionAddress region (place i) } =
      NativeMachine.ofProgress
        (execute hosts { s with rip := regionAddress region (place (i + 1)) } instr) := by
  obtain ⟨pieces, offset, k, hplaced, hpart, hplace⟩ := h.placed
  have hpiece := getElem?_of_isPrefix_drop hpart hinstr
  obtain ⟨hlt, -⟩ := List.getElem?_eq_some_iff.mp hpiece
  rw [hplace, hplace, ← Nat.add_assoc]
  exact step_of_readsAt h.shows hplaced.mappable (hplaced.instr _ _ hpiece)
    (hplaced.offset_le hlt) hne hosts s

/-- A jump of a compact fragment goes to its label if its condition holds. -/
theorem step_jump (h : Fragment code region part place) (hcompact : Compact n part)
    (hn : n < 2 ^ 20) {cond : Option Cond} {target k : Nat}
    (hjump : part[i]? = some (.jump cond target))
    (hlabel : part[k]? = some (.label target)) (hosts : Hosts) (s : State) :
    NativeMachine.step hosts code region { s with rip := regionAddress region (place i) } =
      .next { s with
        rip := regionAddress region
          (place (if cond.all s.flags.holds = true then k else i + 1)) } := by
  obtain ⟨pieces, offset, start, hplaced, hpart, hplace⟩ := h.placed
  have hi : i < part.length := (List.getElem?_eq_some_iff.mp hjump).1
  have hk : k < part.length := (List.getElem?_eq_some_iff.mp hlabel).1
  have hpiece := getElem?_of_isPrefix_drop hpart hjump
  obtain ⟨hlt, -⟩ := List.getElem?_eq_some_iff.mp hpiece
  obtain ⟨instr, hreads, hjumps⟩ := hplaced.jump _ cond target _ hpiece
    (getElem?_of_isPrefix_drop hpart hlabel)
  have hnear := hjumps (hplaced.near_of_compact hpart hcompact hn hi (Nat.le_of_lt hk))
  have hne : instr ≠ returnJump := by
    rintro rfl
    cases hnear
  rw [apply_ite place, hplace, hplace, hplace, ← Nat.add_assoc,
    step_of_readsAt h.shows hplaced.mappable hreads (hplaced.offset_le hlt) hne hosts s,
    execute_jump hnear]
  rfl

/-- The native machine goes through a fragment as control does among the pieces. -/
theorem run_reaches (h : Fragment code region part place) (hcompact : Compact n part)
    (hn : n < 2 ^ 20) (hreaches : Reaches part i s j t) (hosts : Hosts) :
    ∃ n, run (NativeMachine.step hosts code region) n
      { s with rip := regionAddress region (place i) } =
      .next { t with rip := regionAddress region (place j) } := by
  induction hreaches with
  | refl => exact ⟨0, rfl⟩
  | @instr _ _ s _ _ _ piece exec _ ih =>
      obtain ⟨n, hrun⟩ := ih
      have hstep := h.step_instr piece (ne_returnJump exec) hosts s
      rw [exec] at hstep
      exact ⟨n + 1, by rw [run_succ_of_next hstep, hrun]⟩
  | label piece _ ih =>
      obtain ⟨n, hrun⟩ := ih
      obtain ⟨pieces, offset, k, hplaced, hpart, hplace⟩ := h.placed
      have hsame := hplaced.label _ _ (getElem?_of_isPrefix_drop hpart piece)
      rw [Nat.add_assoc, ← hplace, ← hplace] at hsame
      exact ⟨n, by rw [← hsame, hrun]⟩
  | @jump _ _ _ _ _ s _ piece label _ ih =>
      obtain ⟨n, hrun⟩ := ih
      exact ⟨n + 1, by rw [run_succ_of_next (h.step_jump hcompact hn piece label hosts s), hrun]⟩

/-- When control gets to an instruction that traps, the machine halts. -/
theorem run_trap (h : Fragment code region part place) (hcompact : Compact n part) (hn : n < 2 ^ 20)
    (hreaches : Reaches part i s j t) {instr : Instr} {signal : Signal}
    (hinstr : part[j]? = some (.instr instr)) (hne : instr ≠ returnJump)
    (htrap : ∀ rip, execute hosts { t with rip } instr = .trap signal { t with rip }) :
    ∃ n, run (NativeMachine.step hosts code region) n
      { s with rip := regionAddress region (place i) } =
      .halt (.trapped signal) { t with rip := regionAddress region (place (j + 1)) } := by
  obtain ⟨n, hrun⟩ := h.run_reaches hcompact hn hreaches hosts
  have hstep := h.step_instr hinstr hne hosts t
  rw [htrap] at hstep
  exact ⟨n + 1, (run_add hrun 1).trans (run_succ_of_halt hstep 0)⟩

/-- Code that computes in registers and stores what it leaves in `rax`, after operands were
loaded. -/
theorem run_stores {front core result : List Piece} {inst : Inst} {ty : Integral}
    {base count dst : Nat} {frame : Frame} {loaded : State}
    (h : Fragment code region (front ++ (core ++ result)) place)
    (hcompact : Compact n (front ++ (core ++ result))) (hn : n < 2 ^ 20)
    (hs : s.Sees base count frame) (hcount : count < 2 ^ 31) (hdst : inst.dst = some (.slot dst))
    (hin : dst < count) (hfront : Leads front s loaded)
    (hloaded : Aside s loaded) (hcore : Reaches core 0 loaded core.length t)
    (hcomputed : Aside loaded t) (hresult : store inst ty.valueType .rax = .ok result)
    (hosts : Hosts) :
    ∃ m u, run (NativeMachine.step hosts code region) m
        { s with rip := regionAddress region (place 0) } =
        .next u ∧ u.rip = regionAddress region (place (front ++ (core ++ result)).length) ∧
      StoresOnly ty (base + dst) (t.regPart (sizeOf ty.valueType) .rax) s u := by
  have haside := hloaded.trans hcomputed
  have hstore := leads_store (haside.sees hs) hcount hdst hin hresult
  rw [ofBits_eq_valueOf] at hstore
  have hlt : base + dst < s.memory.slots.size := by
    have := hs.fits
    omega
  have hstored : StoresOnly ty (base + dst) (t.regPart (sizeOf ty.valueType) .rax) s _ :=
    haside.storesOnly hlt
  have hreaches : Reaches (front ++ (core ++ result)) 0 s (front ++ (core ++ result)).length
      (t.put (base + dst) (valueOf _ (t.regPart (sizeOf ty.valueType) .rax))) := by
    have hback := (hcore.append_right result).trans (hstore.reaches.append_left core)
    rw [← List.length_append] at hback
    have hall := (hfront.reaches.append_right (core ++ result)).trans (hback.append_left front)
    rwa [← List.length_append] at hall
  obtain ⟨m, hrun⟩ := h.run_reaches hcompact hn hreaches hosts
  exact ⟨m, _, hrun, rfl, hstored.value, hstored.bytes, hstored.heap, hstored.stack, hstored.lines,
    hstored.regs⟩

end Fragment

/-! ### Code of instructions -/

/-- The code of an instruction is in place, from one offset to another. -/
def CodeAt (code : CodeMap) (region : Region) (inst : Inst) (start finish : Nat) : Prop :=
  ∃ site fresh part place, template site fresh inst = .ok part ∧ Fragment code region part place ∧
    place 0 = start ∧ place part.length = finish

section Compiled

variable {ctx : Context} {natives : Natives} {alloc alloc' : Allocator}
  {id : SymbolId} {method : Method} {compiled : CompiledMethod} {relocations : List Relocation}
  (h : compileMethod ctx natives alloc id method = (alloc', .ok (compiled, relocations)))
  {code : CodeMap} (hshows : code.Shows compiled.code) {index : Nat} {inst : Inst}
  (hinst : method.body.code[index]? = some inst)

include h hshows hinst

/-- Every instruction of a compiled method has its template in place. -/
theorem exists_fragment :
    ∃ fresh part place, template ⟨ctx, natives, method.body.frameSlots⟩ fresh inst = .ok part ∧
      Fragment code compiled.code part place := by
  obtain ⟨pieces, offset, items, hpieces, hplaced, -⟩ := placed_of_compileMethod h
  obtain ⟨start, hblocks⟩ := exists_blocks_of_bodyPieces hpieces
  obtain ⟨fresh, part, k, htemplate, hpart, -⟩ := hblocks.exists_code hplaced hinst
  exact ⟨fresh, part,
    fun i => offset (k + i), htemplate, hshows, pieces, offset, k, hplaced, hpart, fun _ => rfl⟩

/-- Every instruction of a compiled method has its code. -/
theorem exists_codeAt : ∃ start finish, CodeAt code compiled.code inst start finish := by
  obtain ⟨fresh, part, place, htemplate, hfragment⟩ := exists_fragment h hshows hinst
  exact ⟨_, _, _, fresh, part, place, htemplate, hfragment, rfl, rfl⟩

end Compiled

/-- A method whose labels are in order is compiled, and its code can be executed. -/
theorem exists_shown {ctx : Context} {natives : Natives} {method : Method} {pieces : List Piece}
    (hcode : method.body.code.isEmpty = false)
    (hpieces : bodyPieces ⟨ctx, natives, method.body.frameSlots⟩ method.body.code = .ok pieces)
    (hnodup : ((pieces.map Piece.emission).filterMap Emission.bound?).Nodup)
    (hbound : ∀ target ∈ (pieces.map Piece.emission).filterMap Emission.named?,
      target ∈ (pieces.map Piece.emission).filterMap Emission.bound?)
    (hfew : maxInstrLength * pieces.length < mappableSize) :
    ∃ compiled relocations alloc',
      compileMethod ctx natives { next := Allocator.codeBase } method.id method =
          (alloc', .ok (compiled, relocations)) ∧
        (CodeMap.insert {} compiled.code).Shows compiled.code := by
  have hroom : Allocator.codeBase.toNat + 2 * mappableSize ≤ addressCount := by decide
  obtain ⟨compiled, relocations, alloc', hcompile, hbase, hsize⟩ :=
    @exists_compileMethod ctx natives { next := Allocator.codeBase } method.id method pieces hcode
      hpieces hnodup hbound rfl hfew hroom
  refine ⟨compiled, relocations, alloc', hcompile, shows_insert _ ?_ ?_⟩
  · rw [hbase]
    decide
  · rw [hbase]
    show Allocator.codeBase.toNat + _ ≤ _
    omega

end SlotJit.Codegen

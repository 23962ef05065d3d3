import SlotJit.Linking
import SlotJit.Proofs.Codegen.Batches
import SlotJit.Proofs.X64.RoundTrip

/-!
# Linking any batch

Linking checks and fills in one relocation after the other, so a batch that cannot be linked is left
with the sites of the relocations before the first bad one filled in. Which relocation that is, what
is wrong with it and what was written can all be told from the batch as it was: filling in sites
changes neither ids nor places, sizes or flags. This holds of batches that no compiler makes as
well, where an id occurs twice, code is executable already, or sites overlap.

Where an id occurs twice its first code counts (`First`). A byte that several sites cover is the one
that was written last (`Written`).

## Main results

* `fillable_or_fault`: a relocation can be filled in, or something is wrong with it.
* `patch_of_fillable`, `patch_of_fault`: the step for one relocation.
* `exists_patchAll`: what the run over relocations writes, as long as they can be filled in.
* `link_fills_in_order`: both for a whole batch.
-/

namespace SlotJit.Linking

open SlotJit.CodeMemory SlotJit.Codegen SlotJit.Tables

variable {ctx : Context} {batch batch' b : CompiledBatch} {r : Relocation} {done : List Relocation}
  {id : SymbolId} {address : UInt64} {k : Nat} {c c' : CompiledMethod} {error : LinkError}

/-! ### Places -/

/-- Code of the same method in the same place. -/
structure SamePlace (c c' : CompiledMethod) : Prop where
  id : c'.id = c.id
  base : c'.code.base = c.code.base
  size : c'.code.size = c.code.size

/-- The same methods with their code in the same places. -/
structure SamePlaces (batch batch' : CompiledBatch) : Prop where
  size : batch'.methods.size = batch.methods.size
  place : ∀ (i : Nat) (c' : CompiledMethod), batch'.methods[i]? = some c' →
    ∃ c, batch.methods[i]? = some c ∧ SamePlace c c'

/-- What hangs on places alone is the same for each method. -/
theorem SamePlaces.map_eq {α : Type} {f : CompiledMethod → α} (h : SamePlaces batch batch')
    (hf : ∀ c c', SamePlace c c' → f c' = f c) :
    batch'.methods.toList.map f = batch.methods.toList.map f := by
  apply List.ext_getElem?
  intro i
  rw [List.getElem?_map, List.getElem?_map, Array.getElem?_toList, Array.getElem?_toList]
  rcases hi : batch'.methods[i]? with _ | c'
  · have hsize := h.size
    have hout := Array.getElem?_eq_none_iff.mp hi
    rw [Array.getElem?_eq_none_iff.mpr (by omega)]
  · obtain ⟨c, hc, hplace⟩ := h.place i c' hi
    rw [hc]
    exact congrArg some (hf c c' hplace)

/-- Where the same methods are, they stand in the same order. -/
theorem SamePlaces.ids (h : SamePlaces batch batch') :
    batch'.methods.toList.map CompiledMethod.id = batch.methods.toList.map CompiledMethod.id :=
  h.map_eq fun _ _ hplace => hplace.id

/-- The code base of a method in a batch, found among ids and bases. -/
theorem base_find? (batch : CompiledBatch) (id : SymbolId) :
    (batch.find? id).map (·.code.base) =
      ((batch.methods.toList.map fun c => (c.id, c.code.base)).find? (·.1 == id)).map (·.2) := by
  rw [List.find?_map, Option.map_map, CompiledBatch.find?, ← Array.find?_toList]
  rfl

/-- Moving no code keeps all addresses. -/
theorem SamePlaces.codeAddress?_eq (h : SamePlaces batch batch') (id : SymbolId) :
    codeAddress? ctx batch' id = codeAddress? ctx batch id := by
  have hbase : (batch'.find? id).map (·.code.base) = (batch.find? id).map (·.code.base) := by
    rw [base_find?, base_find?, h.map_eq fun c c' hplace => by rw [hplace.id, hplace.base]]
  unfold codeAddress?
  rcases hb : batch.find? id with _ | c <;> rcases hb' : batch'.find? id with _ | c'
  · rfl
  · rw [hb, hb'] at hbase
    cases hbase
  · rw [hb, hb'] at hbase
    cases hbase
  · rw [hb, hb'] at hbase
    exact hbase

/-! ### What a relocation asks for -/

/-- The first code of a method in a batch, and its index. -/
structure First (batch : CompiledBatch) (id : SymbolId) (k : Nat) (c : CompiledMethod) : Prop where
  found : batch.methods[k]? = some c
  same : c.id = id
  first : ∀ j < k, ∀ c', batch.methods[j]? = some c' → c'.id ≠ id

/-- The address of a method's code: of its first code in the batch, or else of the published
code. -/
inductive AddressOf (ctx : Context) (batch : CompiledBatch) (id : SymbolId) : UInt64 → Prop
  | compiled {k : Nat} {c : CompiledMethod} (first : First batch id k c) :
      AddressOf ctx batch id c.code.base
  | published {method : Method} {code : Region} (notCompiled : ∀ c ∈ batch.methods, c.id ≠ id)
      (found : ctx.method? id = some method) (has : method.code = some code) :
      AddressOf ctx batch id code.base

/-- A relocation can be filled in: its source has code, and the first code of its target can be
written and has the eight bytes. -/
structure Fillable (ctx : Context) (batch : CompiledBatch) (r : Relocation) : Prop where
  source : ∃ address, AddressOf ctx batch r.source address
  target : ∃ k c, First batch r.target k c ∧ c.code.executable = false ∧ r.offset + 8 ≤ c.code.size

/-- What is wrong with a relocation. The source comes before the target, and whether code can be
written before where. -/
inductive Fault (ctx : Context) (batch : CompiledBatch) (r : Relocation) : LinkError → Prop
  | source (missing : ∀ address, ¬ AddressOf ctx batch r.source address) :
      Fault ctx batch r (.missingSource r.source (ctx.qualifiedName r.source))
  | target {address : UInt64} (source : AddressOf ctx batch r.source address)
      (missing : ∀ c ∈ batch.methods, c.id ≠ r.target) :
      Fault ctx batch r (.missingTarget r.target (ctx.qualifiedName r.target))
  | executable {address : UInt64} {k : Nat} {c : CompiledMethod}
      (source : AddressOf ctx batch r.source address) (target : First batch r.target k c)
      (executable : c.code.executable = true) :
      Fault ctx batch r (.patch (ctx.qualifiedName r.target) r.offset .notWritable)
  | outside {address : UInt64} {k : Nat} {c : CompiledMethod}
      (source : AddressOf ctx batch r.source address) (target : First batch r.target k c)
      (writable : c.code.executable = false) (outside : c.code.size < r.offset + 8) :
      Fault ctx batch r
        (.patch (ctx.qualifiedName r.target) r.offset (.outOfBounds r.offset 8 c.code.size))

/-- The site of a relocation has the byte at an offset of a region. -/
def Covers (batch : CompiledBatch) (r : Relocation) (k i : Nat) : Prop :=
  (∃ c, First batch r.target k c) ∧ r.offset ≤ i ∧ i < r.offset + 8

/-- A byte of an address, the lowest first. -/
def addressByte (address : UInt64) (j : Nat) : UInt8 := UInt8.ofNat (address.toNat / 256 ^ j)

/-- The byte at an offset of a region after relocations were filled in: of the last one whose site
has it, or as it was. -/
inductive Written (ctx : Context) (batch : CompiledBatch) (done : List Relocation) (k i : Nat)
    (original : UInt8) : UInt8 → Prop
  | kept (none : ∀ r ∈ done, ¬ Covers batch r k i) : Written ctx batch done k i original original
  | last {before after : List Relocation} {r : Relocation} {address : UInt64}
      (parts : done = before ++ r :: after) (covers : Covers batch r k i)
      (later : ∀ r' ∈ after, ¬ Covers batch r' k i)
      (source : AddressOf ctx batch r.source address) :
      Written ctx batch done k i original (addressByte address (i - r.offset))

/-! ### Finding code -/

/-- Searching a batch finds the first method of an id. -/
theorem findIdx?_eq_some_iff :
    batch.methods.findIdx? (·.id == id) = some k ↔ ∃ c, First batch id k c := by
  rw [Array.findIdx?_eq_some_iff_getElem]
  constructor
  · rintro ⟨hlt, hid, hfirst⟩
    refine ⟨batch.methods[k], Array.getElem?_eq_getElem hlt, beq_iff_eq.mp hid,
      fun j hj c' hc' => ?_⟩
    obtain ⟨hlt', rfl⟩ := Array.getElem?_eq_some_iff.mp hc'
    exact fun heq => hfirst j hj (beq_iff_eq.mpr heq)
  · rintro ⟨c, hfound, hid, hfirst⟩
    obtain ⟨hlt, rfl⟩ := Array.getElem?_eq_some_iff.mp hfound
    refine ⟨hlt, beq_iff_eq.mpr hid, fun j hj heq => ?_⟩
    exact hfirst j hj _ (Array.getElem?_eq_getElem _) (beq_iff_eq.mp heq)

/-- Searching a batch finds nothing if no method has the id. -/
theorem findIdx?_eq_none_iff :
    batch.methods.findIdx? (·.id == id) = none ↔ ∀ c ∈ batch.methods, c.id ≠ id := by
  simp [Array.findIdx?_eq_none_iff]

/-- There is one first method of an id. -/
theorem First.unique {k' : Nat} (h : First batch id k c) (h' : First batch id k' c') :
    k = k' ∧ c = c' := by
  have hk : k = k' :=
    Option.some.inj
      ((findIdx?_eq_some_iff.mpr ⟨c, h⟩).symm.trans (findIdx?_eq_some_iff.mpr ⟨c', h'⟩))
  subst hk
  exact ⟨rfl, Option.some.inj (h.found.symm.trans h'.found)⟩

/-- The method that a batch has for an id. -/
theorem find?_eq_some_iff : batch.find? id = some c ↔ ∃ k, First batch id k c := by
  rw [CompiledBatch.find?, Array.find?_eq_some_iff_getElem]
  constructor
  · rintro ⟨hid, k, hlt, rfl, hfirst⟩
    refine ⟨k, Array.getElem?_eq_getElem hlt, beq_iff_eq.mp hid, fun j hj c' hc' => ?_⟩
    obtain ⟨hlt', rfl⟩ := Array.getElem?_eq_some_iff.mp hc'
    simpa using hfirst j hj
  · rintro ⟨k, hfound, hid, hfirst⟩
    obtain ⟨hlt, rfl⟩ := Array.getElem?_eq_some_iff.mp hfound
    refine ⟨beq_iff_eq.mpr hid, k, hlt, rfl, fun j hj => ?_⟩
    simpa using hfirst j hj _ (Array.getElem?_eq_getElem _)

/-- An address is found where there is one to have. -/
theorem codeAddress?_eq_some_iff : codeAddress? ctx batch id = some address ↔
    AddressOf ctx batch id address := by
  constructor
  · intro h
    unfold codeAddress? at h
    split at h
    · rename_i c hfound
      cases h
      obtain ⟨k, hfirst⟩ := find?_eq_some_iff.mp hfound
      exact .compiled hfirst
    · rename_i hnone
      obtain ⟨method, hmethod, h⟩ := Option.bind_eq_some_iff.mp h
      obtain ⟨code, hcode, h⟩ := Option.bind_eq_some_iff.mp h
      cases h
      exact .published (by simpa [CompiledBatch.find?] using hnone) hmethod hcode
  · intro h
    cases h with
    | compiled first => rw [codeAddress?, find?_eq_some_iff.mpr ⟨_, first⟩]
    | published notCompiled found has =>
        have hnone : batch.find? id = none := by simpa [CompiledBatch.find?] using notCompiled
        simp [codeAddress?, hnone, found, has]

/-- A method has one address. -/
theorem AddressOf.unique {address' : UInt64} (h : AddressOf ctx batch id address)
    (h' : AddressOf ctx batch id address') : address = address' :=
  Option.some.inj ((codeAddress?_eq_some_iff.mpr h).symm.trans (codeAddress?_eq_some_iff.mpr h'))

/-- No address is found where there is none. -/
theorem codeAddress?_eq_none_iff : codeAddress? ctx batch id = none ↔
    ∀ address, ¬ AddressOf ctx batch id address := by
  simp only [Option.eq_none_iff_forall_ne_some, ne_eq, codeAddress?_eq_some_iff]

/-- Of a relocation that cannot be filled in, it can be told what is wrong. -/
theorem fillable_or_fault (ctx : Context) (batch : CompiledBatch) (r : Relocation) :
    Fillable ctx batch r ∨ ∃ error, Fault ctx batch r error := by
  cases hsource : codeAddress? ctx batch r.source with
  | none => exact .inr ⟨_, .source (codeAddress?_eq_none_iff.mp hsource)⟩
  | some address =>
      have hsource := codeAddress?_eq_some_iff.mp hsource
      cases htarget : batch.methods.findIdx? (·.id == r.target) with
      | none => exact .inr ⟨_, .target hsource (findIdx?_eq_none_iff.mp htarget)⟩
      | some k =>
          obtain ⟨c, hfirst⟩ := findIdx?_eq_some_iff.mp htarget
          cases hflag : c.code.executable with
          | true => exact .inr ⟨_, .executable hsource hfirst hflag⟩
          | false =>
              by_cases hfits : r.offset + 8 ≤ c.code.size
              · exact .inl ⟨⟨address, hsource⟩, k, c, hfirst, hflag, hfits⟩
              · exact .inr ⟨_, .outside hsource hfirst hflag (Nat.not_le.mp hfits)⟩

/-! ### Batches that were filled in -/

/-- Each region of a batch is in a relation to the region at the same index of another batch. -/
def Regionwise (P : Nat → CompiledMethod → CompiledMethod → Prop)
    (batch b : CompiledBatch) : Prop :=
  b.methods.size = batch.methods.size ∧
    ∀ k c, batch.methods[k]? = some c → ∃ c', b.methods[k]? = some c' ∧ P k c c'

/-- Code with the sites of some relocations filled in. -/
structure Filled (ctx : Context) (batch : CompiledBatch) (done : List Relocation) (k : Nat)
    (c c' : CompiledMethod) : Prop extends SamePlace c c' where
  bytes : ∀ i, Written ctx batch done k i (c.code.byte i) (c'.code.byte i)

/-- A batch with the sites of some relocations filled in, and all else as it was. -/
def Patched (ctx : Context) (batch : CompiledBatch) (done : List Relocation)
    (b : CompiledBatch) : Prop :=
  b.relocations = batch.relocations ∧
    Regionwise
    (fun k c c' => Filled ctx batch done k c c' ∧ c'.code.executable = c.code.executable) batch b

/-- Without relocations nothing is patched. -/
theorem patched_nil (ctx : Context) (batch : CompiledBatch) : Patched ctx batch [] batch := by
  refine ⟨rfl, rfl, fun k c hc => ⟨c, hc, ⟨⟨rfl, rfl, rfl⟩, fun i => .kept ?_⟩, rfl⟩⟩
  exact fun r hr => absurd hr List.not_mem_nil

/-- A relocation whose site does not have a byte leaves it as it is. -/
theorem Written.skip {i : Nat} {original byte : UInt8}
    (h : Written ctx batch done k i original byte)
    (hr : ¬ Covers batch r k i) : Written ctx batch (done ++ [r]) k i original byte := by
  cases h with
  | kept none =>
      refine .kept fun r' hr' => ?_
      rcases List.mem_append.mp hr' with hr' | hr'
      · exact none r' hr'
      · exact List.mem_singleton.mp hr' ▸ hr
  | @last before after r' address parts covers later source =>
      refine .last (by rw [parts, List.append_assoc, List.cons_append]) covers
        (fun r'' hr'' => ?_) source
      rcases List.mem_append.mp hr'' with hr'' | hr''
      · exact later r'' hr''
      · exact List.mem_singleton.mp hr'' ▸ hr

/-- A relocation whose site has a byte writes it. -/
theorem Written.write {i : Nat} {original : UInt8} (hr : Covers batch r k i)
    (hsource : AddressOf ctx batch r.source address) :
    Written ctx batch (done ++ [r]) k i original (addressByte address (i - r.offset)) :=
  .last rfl hr (fun _ h => absurd h List.not_mem_nil) hsource

/-- A byte of a number. -/
theorem getElem?_littleEndian {count n j : Nat} (h : j < count) :
    (littleEndian count n)[j]? = some (UInt8.ofNat (n / 256 ^ j)) := by
  induction count generalizing n j with
  | zero => omega
  | succ count ih =>
      cases j with
      | zero => simp [littleEndian]
      | succ j =>
          rw [littleEndian, List.getElem?_cons_succ, ih (by omega), Nat.div_div_eq_div_mul,
            Nat.pow_succ, Nat.mul_comm]

/-- What writing an address does to each byte. -/
theorem byte_writeWord {region region' : Region} {offset : Nat}
    (h : region.writeWord offset address = (region', none)) (i : Nat) :
    region'.byte i = if offset ≤ i ∧ i < offset + 8 then addressByte address (i - offset)
      else region.byte i := by
  rw [Region.byte_write h, length_littleEndian]
  split
  · rw [getElem?_littleEndian (by omega), Option.getD_some, addressByte]
  · rfl

/-- Regions stay in place if those of all methods do. -/
theorem Regionwise.samePlaces {P : Nat → CompiledMethod → CompiledMethod → Prop}
    (h : Regionwise P batch b) (hP : ∀ k c c', P k c c' → SamePlace c c') : SamePlaces batch b := by
  obtain ⟨hsize, hmethods⟩ := h
  refine ⟨hsize, fun k c' hc' => ?_⟩
  have hlt : k < batch.methods.size := hsize ▸ (Array.getElem?_eq_some_iff.mp hc').1
  obtain ⟨c'', hc'', hplace⟩ := hmethods k _ (Array.getElem?_eq_getElem hlt)
  cases Option.some.inj (hc'.symm.trans hc'')
  exact ⟨_, Array.getElem?_eq_getElem hlt, hP k _ _ hplace⟩

namespace Patched

/-- Patching leaves the regions in place. -/
theorem samePlaces (h : Patched ctx batch done b) : SamePlaces batch b :=
  h.2.samePlaces fun _ _ _ hfilled => hfilled.1.toSamePlace

/-- The first code of a method stays the first. -/
theorem exists_first (h : Patched ctx batch done b) (hfirst : First batch id k c) :
    ∃ c', First b id k c' ∧ Filled ctx batch done k c c' ∧
      c'.code.executable = c.code.executable := by
  obtain ⟨c', hc', hfilled, hflag⟩ := h.2.2 k c hfirst.found
  refine ⟨c', ⟨hc', hfilled.id.trans hfirst.same, fun j hj d' hd' => ?_⟩, hfilled, hflag⟩
  obtain ⟨d, hd, hplace⟩ := h.samePlaces.place j d' hd'
  exact hplace.id ▸ hfirst.first j hj d hd

/-- Patching brings no new methods. -/
theorem missing (h : Patched ctx batch done b) (hmissing : ∀ c ∈ batch.methods, c.id ≠ id) :
    ∀ c ∈ b.methods, c.id ≠ id := by
  intro c' hc'
  obtain ⟨k, hk⟩ := Array.mem_iff_getElem?.mp hc'
  obtain ⟨c, hc, hplace⟩ := h.samePlaces.place k c' hk
  exact hplace.id ▸ hmissing c (Array.mem_of_getElem? hc)

end Patched

/-! ### One relocation -/

/-- Filling in a relocation writes the address of its callee's code. -/
theorem patch_of_writeWord {code : Region} {cause : Option MemoryError}
    (hsource : codeAddress? ctx b r.source = some address) (htarget : First b r.target k c)
    (hwrite : c.code.writeWord r.offset address = (code, cause)) :
    patch ctx b r = ({ b with methods := b.methods.setIfInBounds k { c with code } },
      cause.map (.patch (ctx.qualifiedName r.target) r.offset)) := by
  simp only [patch, hsource, findIdx?_eq_some_iff.mpr ⟨c, htarget⟩, htarget.found, hwrite]

/-- A relocation that cannot be written changes nothing. -/
theorem patch_of_writeWord_error {cause : MemoryError}
    (hsource : codeAddress? ctx b r.source = some address) (htarget : First b r.target k c)
    (hwrite : (c.code.writeWord r.offset address).2 = some cause) :
    patch ctx b r = (b, some (.patch (ctx.qualifiedName r.target) r.offset cause)) := by
  have hcode := Region.eq_of_write_eq_some (Prod.ext rfl hwrite)
  obtain ⟨hlt, hfound⟩ := Array.getElem?_eq_some_iff.mp htarget.found
  rw [patch_of_writeWord hsource htarget (Prod.ext hcode hwrite)]
  have hmethods : b.methods.setIfInBounds k c = b.methods := by
    rw [Array.setIfInBounds, dif_pos hlt, ← hfound, Array.set_getElem_self]
  exact Prod.ext (congrArg (CompiledBatch.mk · b.relocations) hmethods) rfl

/-- A relocation that could be filled in at first can be when it is its turn. -/
theorem patch_of_fillable (h : Patched ctx batch done b) (hr : Fillable ctx batch r) :
    ∃ b', patch ctx b r = (b', none) ∧ Patched ctx batch (done ++ [r]) b' := by
  obtain ⟨⟨address, hsource⟩, k, c, hfirst, hwritable, hfits⟩ := hr
  obtain ⟨c', hfirst', hfilled, hflag⟩ := h.exists_first hfirst
  have haddress : codeAddress? ctx b r.source = some address :=
    (h.samePlaces.codeAddress?_eq r.source).trans (codeAddress?_eq_some_iff.mpr hsource)
  obtain ⟨code, hwrite⟩ : ∃ code, c'.code.writeWord r.offset address = (code, none) :=
    ⟨_, Region.write_eq_none_iff.mpr
      ⟨hflag.trans hwritable, by rwa [length_littleEndian, hfilled.size], rfl⟩⟩
  refine ⟨_, patch_of_writeWord haddress hfirst' hwrite, h.1, by simpa using h.2.1,
    fun j d hd => ?_⟩
  obtain ⟨d', hd', hdfilled, hdflag⟩ := h.2.2 j d hd
  by_cases hj : k = j
  · -- The region that is written.
    subst hj
    cases Option.some.inj (hd'.symm.trans hfirst'.found)
    cases Option.some.inj (hd.symm.trans hfirst.found)
    obtain ⟨hbase, hsize, hkept⟩ := Region.frame_of_write hwrite
    refine ⟨{ c' with code }, ?_, ⟨⟨hfilled.id, hbase.trans hfilled.base, hsize.trans hfilled.size⟩,
      fun i => ?_⟩, hkept.trans hflag⟩
    · rw [Array.getElem?_setIfInBounds_self_of_lt (Array.getElem?_eq_some_iff.mp hd').1]
    · rw [byte_writeWord hwrite]
      split
      · rename_i hsite
        exact .write ⟨⟨c, hfirst⟩, hsite⟩ hsource
      · rename_i hsite
        exact (hfilled.bytes i).skip fun hcovers => hsite hcovers.2
  · refine ⟨d', by rw [Array.getElem?_setIfInBounds_ne hj, hd'],
      ⟨hdfilled.toSamePlace, fun i => ?_⟩, hdflag⟩
    refine (hdfilled.bytes i).skip ?_
    rintro ⟨⟨d, hdfirst⟩, -⟩
    exact hj (hfirst.unique hdfirst).1

/-- What was wrong with a relocation at first is reported when it is its turn. -/
theorem patch_of_fault (h : Patched ctx batch done b) (hfault : Fault ctx batch r error) :
    patch ctx b r = (b, some error) := by
  have haddress {address : UInt64} (hsource : AddressOf ctx batch r.source address) :
      codeAddress? ctx b r.source = some address :=
    (h.samePlaces.codeAddress?_eq r.source).trans (codeAddress?_eq_some_iff.mpr hsource)
  cases hfault with
  | source missing =>
      have hnone : codeAddress? ctx b r.source = none :=
        (h.samePlaces.codeAddress?_eq r.source).trans (codeAddress?_eq_none_iff.mpr missing)
      simp only [patch, hnone]
  | target source missing =>
      simp only [patch, haddress source, findIdx?_eq_none_iff.mpr (h.missing missing)]
  | executable source target executable =>
      obtain ⟨c', hfirst, -, hflag⟩ := h.exists_first target
      refine patch_of_writeWord_error (haddress source) hfirst ?_
      rw [Region.writeWord, Region.write, if_pos (hflag.trans executable)]
  | outside source target writable outside =>
      obtain ⟨c', hfirst, hfilled, hflag⟩ := h.exists_first target
      refine patch_of_writeWord_error (haddress source) hfirst ?_
      rw [Region.writeWord, Region.write, hflag.trans writable, if_neg Bool.false_ne_true,
        length_littleEndian, hfilled.size, if_neg (Nat.not_le.mpr outside)]

/-- A relocation that can be filled in has no fault. -/
theorem Fillable.not_fault (h : Fillable ctx batch r) : ¬ Fault ctx batch r error := by
  intro hfault
  obtain ⟨b', hpatch, -⟩ := patch_of_fillable (patched_nil ctx batch) h
  rw [patch_of_fault (patched_nil ctx batch) hfault] at hpatch
  cases hpatch

/-! ### All relocations -/

/-- Relocations that can be filled in are, one after the other, whatever follows them. -/
theorem exists_patchAll (h : Patched ctx batch done b) {these : List Relocation}
    (hthese : ∀ r ∈ these, Fillable ctx batch r) (rest : List Relocation) :
    ∃ b', Patched ctx batch (done ++ these) b' ∧
      patchAll ctx b (these ++ rest) = patchAll ctx b' rest := by
  induction these generalizing done b with
  | nil => exact ⟨b, by rwa [List.append_nil], rfl⟩
  | cons r these ih =>
      obtain ⟨hr, hthese⟩ := List.forall_mem_cons.mp hthese
      obtain ⟨next, hpatch, hnext⟩ := patch_of_fillable h hr
      obtain ⟨b', hb', hrest⟩ := ih hnext hthese
      refine ⟨b', by rwa [List.append_assoc] at hb', ?_⟩
      rw [List.cons_append, patchAll, hpatch]
      exact hrest

/-- A batch of which all relocations can be filled in. -/
theorem link_of_fillable (h : ∀ r ∈ batch.relocations, Fillable ctx batch r) :
    ∃ patched, Patched ctx batch batch.relocations patched ∧
      link ctx batch = (sealCode patched, none) := by
  obtain ⟨patched, hpatched, hall⟩ := exists_patchAll (patched_nil ctx batch) h []
  rw [List.append_nil, patchAll] at hall
  exact ⟨patched, hpatched, by simp only [link, hall]⟩

/-- A batch with a relocation that cannot be filled in, and its first one. -/
theorem link_of_fault {before after : List Relocation}
    (hparts : batch.relocations = before ++ r :: after)
    (hbefore : ∀ r' ∈ before, Fillable ctx batch r') (hfault : Fault ctx batch r error) :
    ∃ patched, Patched ctx batch before patched ∧ link ctx batch = (patched, some error) := by
  obtain ⟨patched, hpatched, hall⟩ := exists_patchAll (patched_nil ctx batch) hbefore (r :: after)
  rw [patchAll, patch_of_fault hpatched hfault, ← hparts] at hall
  exact ⟨patched, hpatched, by simp only [link, hall]⟩

/-- A batch can be linked, or has a first relocation with something wrong. -/
theorem forall_fillable_or_exists_fault (ctx : Context) (batch : CompiledBatch) :
    (∀ r ∈ batch.relocations, Fillable ctx batch r) ∨
      ∃ before r after error, batch.relocations = before ++ r :: after ∧
        (∀ r' ∈ before, Fillable ctx batch r') ∧ Fault ctx batch r error := by
  rcases forall_or_exists_first (Fillable ctx batch) batch.relocations with
    hall | ⟨before, r, after, hparts, hbefore, hr⟩
  · exact .inl hall
  · obtain ⟨error, hfault⟩ := (fillable_or_fault ctx batch r).resolve_left hr
    exact .inr ⟨before, r, after, error, hparts, hbefore, hfault⟩

/-- Linking succeeds if all relocations can be filled in. -/
theorem link_eq_none_iff :
    (link ctx batch).2 = none ↔ ∀ r ∈ batch.relocations, Fillable ctx batch r := by
  constructor
  · intro h
    refine (forall_fillable_or_exists_fault ctx batch).resolve_right ?_
    rintro ⟨before, r, after, error, hparts, hbefore, hfault⟩
    obtain ⟨patched, -, hlink⟩ := link_of_fault hparts hbefore hfault
    rw [hlink] at h
    cases h
  · intro h
    obtain ⟨patched, -, hlink⟩ := link_of_fillable h
    rw [hlink]

/-- Linking stops at the first relocation that has a fault. -/
theorem link_eq_some_iff : (link ctx batch).2 = some error ↔ ∃ before r after,
    batch.relocations = before ++ r :: after ∧ (∀ r' ∈ before, Fillable ctx batch r') ∧
      Fault ctx batch r error := by
  constructor
  · intro h
    rcases forall_fillable_or_exists_fault ctx batch with
      hall | ⟨before, r, after, error', hparts, hbefore, hfault⟩
    · rw [link_eq_none_iff.mpr hall] at h
      cases h
    · obtain ⟨patched, -, hlink⟩ := link_of_fault hparts hbefore hfault
      rw [hlink] at h
      cases h
      exact ⟨before, r, after, hparts, hbefore, hfault⟩
  · rintro ⟨before, r, after, hparts, hbefore, hfault⟩
    obtain ⟨patched, -, hlink⟩ := link_of_fault hparts hbefore hfault
    rw [hlink]

/-- Making code executable changes no byte. -/
theorem Patched.sealCode (h : Patched ctx batch done b) : Regionwise (fun k c c' =>
    Filled ctx batch done k c c' ∧ c'.code.executable = true) batch (sealCode b) := by
  refine ⟨by simpa [Linking.sealCode] using h.2.1, fun k c hc => ?_⟩
  obtain ⟨c', hc', hfilled, -⟩ := h.2.2 k c hc
  refine ⟨{ c' with code := c'.code.makeExecutable }, ?_, ⟨⟨hfilled.id, hfilled.base, hfilled.size⟩,
    hfilled.bytes⟩, rfl⟩
  rw [Linking.sealCode, Array.getElem?_map, hc', Option.map_some]

/-- Linking moves no code and makes all of it executable. -/
theorem linked_of_link (h : link ctx batch = (batch', none)) :
    SamePlaces batch batch' ∧ ∀ c ∈ batch'.methods, c.code.executable = true := by
  obtain ⟨patched, hpatched, hlink⟩ := link_of_fillable (link_eq_none_iff.mp (congrArg Prod.snd h))
  cases h.symm.trans hlink
  refine ⟨hpatched.sealCode.samePlaces fun _ _ _ hfilled => hfilled.1.toSamePlace, fun c hc => ?_⟩
  obtain ⟨c', -, rfl⟩ := Array.mem_map.mp hc
  rfl

/-- Linking any batch. It succeeds exactly if all relocations can be filled in; then all code is
executable, and each byte is that of the last relocation in order whose site has it, or as it was.
Otherwise it reports what is wrong with the first relocation that cannot be filled in; then no flag
or size has changed, and bytes only in the sites of the relocations before that one. -/
theorem link_fills_in_order (ctx : Context) (batch : CompiledBatch) :
    ((link ctx batch).2 = none ↔ ∀ r ∈ batch.relocations, Fillable ctx batch r) ∧
    ((link ctx batch).2 = none → Regionwise (fun k c c' =>
      Filled ctx batch batch.relocations k c c' ∧ c'.code.executable = true) batch
        (link ctx batch).1) ∧
    (∀ error, (link ctx batch).2 = some error ↔ ∃ before r after,
      batch.relocations = before ++ r :: after ∧ (∀ r' ∈ before, Fillable ctx batch r') ∧
        Fault ctx batch r error) ∧
    ∀ error before r after, batch.relocations = before ++ r :: after →
      (∀ r' ∈ before, Fillable ctx batch r') → Fault ctx batch r error →
        Patched ctx batch before (link ctx batch).1 := by
  refine ⟨link_eq_none_iff, fun h => ?_, fun error => link_eq_some_iff, ?_⟩
  · obtain ⟨patched, hpatched, hlink⟩ := link_of_fillable (link_eq_none_iff.mp h)
    rw [hlink]
    exact hpatched.sealCode
  · intro error before r after hparts hbefore hfault
    obtain ⟨patched, hpatched, hlink⟩ := link_of_fault hparts hbefore hfault
    rw [hlink]
    exact hpatched

/-- The second of two ids. -/
def otherId : SymbolId := { (default : SymbolId) with member := ⟨1, by decide⟩ }

/-- A batch with two codes of one method, and code of another one that is executable already. -/
def crowded (relocations : List Relocation) : CompiledBatch :=
  { methods := #[⟨default, { base := 0x1000, size := 16 }⟩,
      ⟨default, { base := 0x2000, size := 4 }⟩,
      ⟨otherId, { base := 0x3000, size := 8, executable := true }⟩]
    relocations }

/-- Two sites that overlap. -/
def overlapping : List Relocation := [⟨default, default, 0⟩, ⟨otherId, default, 4⟩]

/-- The later site has the bytes that both cover. -/
example : (link {} (crowded overlapping)).1.methods[0]?.map (·.code.bytes) =
    some [0, 0x10, 0, 0, 0, 0x30, 0, 0, 0, 0, 0, 0, 0, 0, 0, 0] := by
  decide +kernel

/-- The first method of `crowded`. -/
theorem first_crowded (relocations : List Relocation) :
    First (crowded relocations) default 0 ⟨default, { base := 0x1000, size := 16 }⟩ :=
  ⟨rfl, rfl, fun j hj => absurd hj (Nat.not_lt_zero j)⟩

/-- The other method of `crowded`. -/
theorem first_crowded_other (relocations : List Relocation) : First (crowded relocations) otherId 2
    ⟨otherId, { base := 0x3000, size := 8, executable := true }⟩ := by
  have hne : (default : SymbolId) ≠ otherId := by decide
  refine ⟨rfl, rfl, fun j hj c hc => ?_⟩
  rcases (show j = 0 ∨ j = 1 by omega) with rfl | rfl
  · obtain rfl := Option.some.inj hc
    exact hne
  · obtain rfl := Option.some.inj hc
    exact hne

/-- All relocations of `overlapping` can be filled in. -/
theorem fillable_overlapping (relocations : List Relocation) :
    ∀ r ∈ overlapping, Fillable {} (crowded relocations) r := by
  have hfirst := first_crowded relocations
  refine List.forall_mem_cons.mpr ⟨?_, List.forall_mem_singleton.mpr ?_⟩
  · exact ⟨⟨_, .compiled hfirst⟩, 0, _, hfirst, rfl, by decide⟩
  · exact ⟨⟨_, .compiled (first_crowded_other relocations)⟩, 0, _, hfirst, rfl, by decide⟩

/-- The sites that overlap are filled in, also when a site in executable code follows. That this
site is outside of the code as well is not what is reported. -/
theorem link_fills_in_order_crowded :
    ((link {} (crowded overlapping)).2 = none ∧ Regionwise (fun k c c' =>
      Filled {} (crowded overlapping) overlapping k c c' ∧ c'.code.executable = true)
      (crowded overlapping) (link {} (crowded overlapping)).1) ∧
    (link {} (crowded (overlapping ++ [⟨default, otherId, 9⟩]))).2 =
      some (.patch (Context.qualifiedName {} otherId) 9 .notWritable) ∧
    Patched {} (crowded (overlapping ++ [⟨default, otherId, 9⟩])) overlapping
      (link {} (crowded (overlapping ++ [⟨default, otherId, 9⟩]))).1 := by
  constructor
  · obtain ⟨hiff, hfilled, -⟩ := link_fills_in_order {} (crowded overlapping)
    have hnone := hiff.mpr (fillable_overlapping overlapping)
    exact ⟨hnone, hfilled hnone⟩
  · obtain ⟨-, -, hiff, hpatched⟩ :=
      link_fills_in_order {} (crowded (overlapping ++ [⟨default, otherId, 9⟩]))
    have hfault : Fault {} (crowded (overlapping ++ [⟨default, otherId, 9⟩])) ⟨default, otherId, 9⟩
        (.patch (Context.qualifiedName {} otherId) 9 .notWritable) :=
      .executable (.compiled (first_crowded _)) (first_crowded_other _) rfl
    exact ⟨(hiff _).mpr ⟨overlapping, _, [], rfl, fillable_overlapping _, hfault⟩,
      hpatched _ overlapping _ [] rfl (fillable_overlapping _) hfault⟩

end SlotJit.Linking

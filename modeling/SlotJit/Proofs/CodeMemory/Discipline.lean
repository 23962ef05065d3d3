import SlotJit.CodeMemory.Allocator
import SlotJit.Proofs.Fallible

/-!
# The discipline of code memory

Operations on one allocator and any number of regions follow each other in any order. The system
answers them as it likes: it maps memory wherever it wants or not at all, and it may refuse to
change the protection of a region. Whatever it does, the allocator counts what it handed out and
keeps to its limit, an operation that fails leaves everything as it is, and so does every operation
on a region that is executable.

## Main results

* `perform_eq_none_iff`: when an operation succeeds, and what it does (`Effect`).
* `perform_of_some`: an operation that fails changes nothing.
* `Effect.accounted`, `Effect.evolves`: what one operation keeps; `run_keeps`, `evolves_run`: what a
  run keeps.
* `operations_keep_discipline`: the discipline after every run.
-/

namespace SlotJit.CodeMemory

/-- Why an operation fails. -/
inductive Failure where
  | memory (cause : MemoryError)
  | protection
  | noRegion

/-- An operation on a region. The system says whether it changes the protection. -/
inductive Change where
  | write (offset : Nat) (data : List UInt8)
  | writeWord (offset : Nat) (word : UInt64)
  | makeExecutable (granted : Bool)

namespace Change

/-- The region after the operation, and why the operation fails if it does. -/
def apply (r : Region) : Change → Region × Option Failure
  | write offset data => (r.write offset data).map id (Option.map .memory)
  | writeWord offset word => (r.writeWord offset word).map id (Option.map .memory)
  | makeExecutable granted =>
    if r.executable || granted then (r.makeExecutable, none) else (r, some .protection)

/-- What is written, and where. -/
def data? : Change → Option (Nat × List UInt8)
  | write offset data => some (offset, data)
  | writeWord offset word => some (offset, littleEndian 8 word.toNat)
  | makeExecutable _ => none

end Change

/-- An operation. The system says where it maps memory, if it does. -/
inductive Op where
  | allocate (size : Nat) (mapped : Option UInt64)
  | create (size : Nat) (mapped : Option UInt64)
  | change (k : Nat) (change : Change)

/-- An address that has no room behind it. A request that the system refuses is one for memory
there. -/
def refused : UInt64 := UInt64.ofNat (addressCount - 1)

/-- A mapped region, and whether the allocator handed it out. -/
structure Held where
  region : Region
  granted : Bool

/-- The bytes of a region that the allocator counts. -/
def Held.counted (h : Held) : Nat := if h.granted then h.region.size else 0

/-- An allocator and the regions mapped so far, in order. -/
structure Arena where
  allocator : Allocator
  held : List Held := []

namespace Arena

/-- Total size of the regions that the allocator handed out. -/
def handedOut (s : Arena) : Nat := (s.held.map Held.counted).sum

/-- The arena after an operation, and why the operation failed if it did. Where the system maps
memory next is not the allocator's business. -/
def perform (s : Arena) : Op → Arena × Option Failure
  | .allocate size mapped =>
    let (allocator, result) := { s.allocator with next := mapped.getD refused }.allocate size
    let s := { s with allocator := { allocator with next := s.allocator.next } }
    match result with
    | .ok region => ({ s with held := s.held ++ [⟨region, true⟩] }, none)
    | .error e => (s, some (.memory e))
  | .create size mapped =>
    match Region.create (mapped.getD refused) size with
    | .error e => (s, some (.memory e))
    | .ok region =>
      if mapped.isSome then ({ s with held := s.held ++ [⟨region, false⟩] }, none)
      else (s, some (.memory (.allocationFailed size)))
  | .change k change =>
    match s.held[k]? with
    | none => (s, some .noRegion)
    | some h =>
      let (region, e) := change.apply h.region
      ({ s with held := s.held.set k { h with region } }, e)

/-- The arena after operations, of which some may have failed. -/
def run (s : Arena) (ops : List Op) : Arena := ops.foldl (fun s op => (s.perform op).1) s

/-- What an operation does when it succeeds. -/
inductive Effect (s : Arena) : Op → Arena → Prop
  | allocate {size : Nat} {base : UInt64} {region : Region} {allocator : Allocator}
      (allocates : Allocates { s.allocator with next := base } size region allocator) :
      Effect s (.allocate size (some base))
        { allocator := { allocator with next := s.allocator.next }
          held := s.held ++ [⟨region, true⟩] }
  | create {size : Nat} {base : UInt64} (pos : 0 < size) (mappable : size < mappableSize) :
      Effect s (.create size (some base)) { s with held := s.held ++ [⟨{ base, size }, false⟩] }
  | change {k : Nat} {change : Change} {h : Held} {region : Region} (found : s.held[k]? = some h)
      (applied : change.apply h.region = (region, none)) :
      Effect s (.change k change) { s with held := s.held.set k { h with region } }

end Arena

/-! ### Regions -/

variable {r r' : Region} {change : Change} {offset : Nat} {data : List UInt8}

/-- A write as an operation. -/
theorem map_memory_eq_none_iff {x : Region × Option MemoryError} :
    x.map id (Option.map Failure.memory) = (r', none) ↔ x = (r', none) := by
  obtain ⟨region, _ | e⟩ := x <;> simp

theorem getElem?_bytes (r : Region) (i : Nat) :
    r.bytes[i]? = if i < r.size then some (r.byte i) else none := by
  simp only [Region.bytes, Region.window, Nat.sub_zero, Nat.min_self, List.getElem?_map,
    Nat.zero_add]
  split
  · rw [List.getElem?_range ‹_›, Option.map_some]
  · rw [List.getElem?_eq_none (by rw [List.length_range]; omega), Option.map_none]

/-- A write puts the data in the place of as many bytes. -/
theorem bytes_write {w : Region} (h : r.write offset data = (w, none)) :
    w.bytes = r.bytes.take offset ++ data ++ r.bytes.drop (offset + data.length) := by
  have hbyte := Region.byte_write h
  obtain ⟨-, hfits, rfl⟩ := Region.write_eq_none_iff.mp h
  have hlength : r.bytes.length = r.size := by simp [Region.bytes, Region.window]
  refine List.ext_getElem? fun i => ?_
  rw [getElem?_bytes, hbyte, List.append_assoc, List.getElem?_append, List.getElem?_append,
    List.getElem?_take, List.getElem?_drop, getElem?_bytes, getElem?_bytes,
    List.length_take, hlength]
  grind

/-- What any operation keeps of a region. -/
structure Evolves (r r' : Region) : Prop where
  size : r'.size = r.size
  frozen : r.executable = true → r' = r

/-- An operation that succeeds keeps that. -/
theorem Change.evolves (h : change.apply r = (r', none)) : Evolves r r' := by
  have hwrite {offset : Nat} {data : List UInt8} (h : r.write offset data = (r', none)) :
      Evolves r r' := by
    obtain ⟨hwritable, -, rfl⟩ := Region.write_eq_none_iff.mp h
    exact ⟨rfl, fun hexecutable => absurd (hwritable.symm.trans hexecutable) Bool.false_ne_true⟩
  cases change with
  | write offset data => exact hwrite (map_memory_eq_none_iff.mp h)
  | writeWord offset word => exact hwrite (map_memory_eq_none_iff.mp h)
  | makeExecutable granted =>
      simp only [apply] at h
      split at h
      · cases h
        exact ⟨rfl, fun hexecutable => by rw [Region.makeExecutable, ← hexecutable]⟩
      · cases h

/-- An operation that fails leaves the region as it was. -/
theorem Change.eq_of_fails {e : Failure} (h : change.apply r = (r', some e)) : r' = r := by
  have hwrite {offset : Nat} {data : List UInt8}
      (h : (r.write offset data).map id (Option.map Failure.memory) = (r', some e)) : r' = r := by
    rcases hwrite : r.write offset data with ⟨w, _ | cause⟩
    · rw [hwrite] at h
      cases h
    · rw [hwrite] at h
      cases h
      exact Region.eq_of_write_eq_some hwrite
  cases change with
  | write offset data => exact hwrite h
  | writeWord offset word => exact hwrite h
  | makeExecutable granted =>
      simp only [apply] at h
      split at h <;> cases h
      rfl

/-- A region that was written is of the same size in the same place, and has the data. -/
structure Wrote (r : Region) (offset : Nat) (data : List UInt8) (r' : Region) : Prop where
  fits : offset + data.length ≤ r.size
  base : r'.base = r.base
  size : r'.size = r.size
  executable : r'.executable = r.executable
  bytes : r'.bytes = r.bytes.take offset ++ data ++ r.bytes.drop (offset + data.length)

/-- What an operation that writes does. -/
theorem Change.wrote (hdata : change.data? = some (offset, data))
    (h : change.apply r = (r', none)) : Wrote r offset data r' := by
  have hwrite : r.write offset data = (r', none) := by
    cases change with
    | makeExecutable => cases hdata
    | write | writeWord =>
        cases hdata
        exact map_memory_eq_none_iff.mp h
  have hbytes := bytes_write hwrite
  obtain ⟨-, hfits, rfl⟩ := Region.write_eq_none_iff.mp hwrite
  exact ⟨hfits, rfl, rfl, rfl, hbytes⟩

/-! ### One operation -/

namespace Arena

variable {s s' : Arena} {op : Op} {limit : Option Nat} {k : Nat} {h : Held}

/-- The system mapped the memory that an allocator handed out. -/
theorem exists_mapped {mapped : Option UInt64} {size : Nat} {region : Region}
    {allocator : Allocator}
    (h : Allocates { s.allocator with next := mapped.getD refused } size region allocator) :
    ∃ base, mapped = some base := by
  cases mapped with
  | some base => exact ⟨base, rfl⟩
  | none =>
      have hfits := h.fits
      have hpos := h.pos
      have hlast : refused.toNat = addressCount - 1 := by decide
      simp only [Option.getD_none, hlast, pageAligned, pageSize] at hfits
      have : addressCount = 2 ^ 64 := rfl
      omega

/-- An operation succeeds exactly if it can have its effect, which it then has. -/
theorem perform_eq_none_iff : s.perform op = (s', none) ↔ Effect s op s' := by
  constructor
  · intro h
    cases op with
    | allocate size mapped =>
        rcases hallocate : { s.allocator with next := mapped.getD refused }.allocate size with
          ⟨allocator, _ | region⟩
        · simp [perform, hallocate] at h
        · have hallocates := allocate_eq_ok_iff.mp hallocate
          obtain ⟨base, rfl⟩ := exists_mapped hallocates
          simp only [perform, hallocate, Prod.mk.injEq, and_true] at h
          subst h
          exact .allocate hallocates
    | create size mapped =>
        simp only [perform] at h
        split at h
        · cases h
        · rename_i hcreate
          obtain ⟨hpos, hmappable, rfl⟩ := Region.create_eq_ok_iff.mp hcreate
          cases mapped with
          | none => cases h
          | some base =>
              cases h
              exact .create hpos hmappable
    | change k change =>
        simp only [perform] at h
        split at h
        · cases h
        · obtain ⟨rfl, hnone⟩ := Prod.mk.inj h
          exact .change ‹_› (Prod.ext rfl hnone)
  · intro h
    cases h with
    | allocate allocates => simp [perform, allocate_eq_ok_iff.mpr allocates]
    | create pos mappable =>
        simp [perform, Region.create_eq_ok_iff.mpr ⟨pos, mappable, rfl⟩]
    | change found applied => simp [perform, found, applied]

/-- An operation that fails changes nothing. -/
theorem perform_of_some {e : Failure} (h : (s.perform op).2 = some e) : (s.perform op).1 = s := by
  cases op with
  | allocate size mapped =>
      rcases hallocate : { s.allocator with next := mapped.getD refused }.allocate size with
        ⟨allocator, _ | region⟩
      · simp only [perform, hallocate, eq_of_allocate_eq_error hallocate]
      · simp [perform, hallocate] at h
  | create size mapped =>
      simp only [perform] at h ⊢
      split at h
      · rfl
      · split at h
        · cases h
        · rw [if_neg ‹_›]
  | change k change =>
      simp only [perform] at h ⊢
      split at h
      · rfl
      · rename_i held hk
        obtain ⟨hlt, rfl⟩ := List.getElem?_eq_some_iff.mp hk
        have hsame : (change.apply s.held[k].region).1 = s.held[k].region :=
          Change.eq_of_fails (Prod.ext rfl h)
        simp only [hsame]
        exact congrArg (Arena.mk s.allocator) (List.set_getElem_self hlt)

/-- The allocator has counted what it handed out, up to the greatest machine word, within its
limit. -/
structure Accounted (limit : Option Nat) (s : Arena) : Prop where
  used : s.allocator.used = min s.handedOut (addressCount - 1)
  within : ∀ most ∈ limit, s.allocator.used ≤ most
  limit : s.allocator.limit = limit

/-- A region of the same size in the place of another one takes as much. -/
theorem handedOut_set {region : Region} (hk : s.held[k]? = some h)
    (hsize : region.size = h.region.size) :
    handedOut { s with held := s.held.set k { h with region } } = s.handedOut := by
  have hcounted : (s.held.map Held.counted)[k]? = some (Held.counted { h with region }) := by
    rw [List.getElem?_map, hk, Option.map_some, Held.counted, Held.counted, hsize]
  obtain ⟨hlt, heq⟩ := List.getElem?_eq_some_iff.mp hcounted
  rw [handedOut, List.map_set, ← heq, List.set_getElem_self, handedOut]

theorem Effect.accounted (heffect : Effect s op s') (hs : Accounted limit s) :
    Accounted limit s' := by
  obtain ⟨hused, hwithin, hlimit⟩ := hs
  cases heffect with
  | allocate allocates =>
      obtain ⟨rfl, -, -, -, -, hmost, hused', hlimit'⟩ := allocates
      refine ⟨?_, fun most hmem => hused' ▸ hmost most (hlimit ▸ hmem), hlimit'.trans hlimit⟩
      simp only [hused', Allocator.requested, hused, handedOut, List.map_append, List.sum_append,
        List.map_singleton, List.sum_singleton, Held.counted, if_true]
      omega
  | create pos mappable => exact ⟨by simpa [handedOut, Held.counted] using hused, hwithin, hlimit⟩
  | change found applied =>
      exact ⟨hused.trans (by rw [handedOut_set found (Change.evolves applied).size]),
        hwithin, hlimit⟩

/-- A region stays at its index, and evolves. -/
theorem Effect.evolves (heffect : Effect s op s') (hk : s.held[k]? = some h) :
    ∃ h', s'.held[k]? = some h' ∧ Evolves h.region h'.region := by
  have hsame : Evolves h.region h.region := ⟨rfl, fun _ => rfl⟩
  have hlt := (List.getElem?_eq_some_iff.mp hk).1
  cases heffect with
  | allocate | create => exact ⟨h, by rw [List.getElem?_append_left hlt, hk], hsame⟩
  | @change j change h₀ region found applied =>
      by_cases hj : j = k
      · subst hj
        cases Option.some.inj (found.symm.trans hk)
        exact ⟨_, List.getElem?_set_self hlt, Change.evolves applied⟩
      · exact ⟨h, (List.getElem?_set_ne hj).trans hk, hsame⟩

/-! ### Runs of operations -/

/-- What operations that succeed keep holds after every run. -/
theorem run_keeps {P : Arena → Prop} (hstep : ∀ {s op s'}, Effect s op s' → P s → P s') (hs : P s)
    (ops : List Op) : P (s.run ops) := by
  induction ops generalizing s with
  | nil => exact hs
  | cons op ops ih =>
      refine ih (s := (s.perform op).1) ?_
      cases hfailure : (s.perform op).2 with
      | none => exact hstep (perform_eq_none_iff.mp (Prod.ext rfl hfailure)) hs
      | some e => rwa [perform_of_some hfailure]

theorem evolves_run (hk : s.held[k]? = some h) (ops : List Op) :
    ∃ h', (s.run ops).held[k]? = some h' ∧ Evolves h.region h'.region := by
  refine run_keeps (P := fun s => ∃ h', s.held[k]? = some h' ∧ Evolves h.region h'.region) ?_
    ⟨h, hk, rfl, fun _ => rfl⟩ ops
  rintro s op s' heffect ⟨h', hk', hbefore⟩
  obtain ⟨h'', hk'', hnow⟩ := heffect.evolves hk'
  refine ⟨h'', hk'', hnow.size.trans hbefore.size, fun hexecutable => ?_⟩
  have hsame := hbefore.frozen hexecutable
  exact (hnow.frozen (hsame ▸ hexecutable)).trans hsame

/-- The discipline of code memory. -/
structure Disciplined (limit : Option Nat) (s : Arena) : Prop where
  /-- The allocator has counted what it handed out. -/
  used : s.handedOut < addressCount → s.allocator.used = s.handedOut
  within : ∀ most ∈ limit, s.allocator.used ≤ most
  succeeds : ∀ op s', s.perform op = (s', none) ↔ Effect s op s'
  fails : ∀ op e, (s.perform op).2 = some e → (s.perform op).1 = s
  /-- A write that succeeds changes the bytes it covers, and nothing else. -/
  writes : ∀ k change offset data s', change.data? = some (offset, data) →
    s.perform (.change k change) = (s', none) → ∃ h region, s.held[k]? = some h ∧
      Wrote h.region offset data region ∧ s' = { s with held := s.held.set k { h with region } }
  /-- A region that is executable is never changed again. -/
  frozen : ∀ (k : Nat) (h : Held) (later : List Op), s.held[k]? = some h →
    h.region.executable = true → ∃ h', (s.run later).held[k]? = some h' ∧ h'.region = h.region

/-- After any operations, whatever the system answered, the discipline of code memory holds. -/
theorem operations_keep_discipline (limit : Option Nat) (next : UInt64) (ops : List Op) :
    Disciplined limit (run { allocator := { limit, next } } ops) := by
  have hstart : Accounted limit { allocator := { limit, next } } :=
    ⟨rfl, fun _ _ => Nat.zero_le _, rfl⟩
  obtain ⟨hused, hwithin, -⟩ := run_keeps Effect.accounted hstart ops
  refine ⟨fun hfits =>
    ?_, hwithin, fun _ _ => perform_eq_none_iff, fun _ _ => perform_of_some, ?_, ?_⟩
  · rw [hused]
    omega
  · intro k change offset data s' hdata hperform
    cases perform_eq_none_iff.mp hperform with
    | change found applied => exact ⟨_, _, found, Change.wrote hdata applied, rfl⟩
  · intro k h later hk hexecutable
    obtain ⟨h', hk', hevolves⟩ := evolves_run hk later
    exact ⟨h', hk', hevolves.frozen hexecutable⟩

-- The second request would pass the limit, the first write the end of the region, and the last
-- write comes when the region is executable.
example :
    let s := run { allocator := { limit := some 20, next := 0 } }
      [.allocate 4 (some 4096), .allocate 17 (some 8192), .create 8 (some 8192),
        .change 0 (.write 3 [1, 2]),
        .change 0 (.write 2 [1, 2]), .change 0 (.makeExecutable true), .change 0 (.write 0 [3])]
    s.allocator.used = 4 ∧
      s.held.map (·.region.bytes) = [[0, 0, 1, 2], [0, 0, 0, 0, 0, 0, 0, 0]] := by
  decide

end Arena

end SlotJit.CodeMemory

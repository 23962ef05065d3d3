import SlotJit.Proofs.Semantics.Values

/-!
# Machines in step

One machine simulates another: each step of the first is matched by some number of steps of the
second, possibly none. So that the second machine is never left behind for good, a step that is
matched by none makes a rank smaller.

The whole runs then correspond by a schedule: after `n` steps of the first machine and `schedule n`
steps of the second they are in related states, or both have come to related halts. The schedule
goes beyond every number, so the second machine does nothing that the first does not account for.
-/

namespace SlotJit.Semantics

variable {ω ω' σ τ : Type} {step₁ : σ → Step ω σ} {step₂ : τ → Step ω' τ} {R : σ → τ → Prop}
  {D : ω → σ → ω' → τ → Prop} {rank : σ → Nat}

/-- Two machines are in states related by `R`, or have come to halts related by `D`. -/
def Step.Related (R : σ → τ → Prop) (D : ω → σ → ω' → τ → Prop) : Step ω σ → Step ω' τ → Prop
  | .next s, .next t => R s t
  | .halt outcome s, .halt outcome' t => D outcome s outcome' t
  | _, _ => False

theorem Step.Related.imp {R' : σ → τ → Prop} {D' : ω → σ → ω' → τ → Prop} {x : Step ω σ}
    {y : Step ω' τ} (h : Step.Related R D x y) (hR : ∀ s t, R s t → R' s t)
    (hD : ∀ outcome s outcome' t, D outcome s outcome' t → D' outcome s outcome' t) :
    Step.Related R' D' x y := by
  cases x <;> cases y <;> try exact h
  · exact hR _ _ h
  · exact hD _ _ _ _ h

/-- If the second machine is in step with a third, so is the first. -/
theorem Step.Related.trans {ω'' υ : Type} {R' : τ → υ → Prop} {D' : ω' → τ → ω'' → υ → Prop}
    {x : Step ω σ} {y : Step ω' τ} {z : Step ω'' υ} (h : Step.Related R D x y)
    (h' : Step.Related R' D' y z) :
    Step.Related (fun s u => ∃ t, R s t ∧ R' t u)
      (fun outcome s ending u => ∃ outcome' t, D outcome s outcome' t ∧ D' outcome' t ending u)
        x z := by
  cases x with
  | stuck => exact h.elim
  | next s =>
      cases y with
      | next t =>
          cases z with
          | next u => exact ⟨t, h, h'⟩
          | halt | stuck => exact h'.elim
      | halt | stuck => exact h.elim
  | halt outcome s =>
      cases y with
      | halt outcome' t =>
          cases z with
          | halt ending u => exact ⟨outcome', t, h, h'⟩
          | next | stuck => exact h'.elim
      | next | stuck => exact h.elim

/-- What a step of the first machine leads to is matched by the second. -/
def Matched (step₂ : τ → Step ω' τ) (R : σ → τ → Prop) (D : ω → σ → ω' → τ → Prop) (rank : σ → Nat)
    (s : σ) (t : τ) : Step ω σ → Prop
  | .next s' => ∃ m t', run step₂ m t = .next t' ∧ R s' t' ∧ (0 < m ∨ rank s' < rank s)
  | .halt outcome s' =>
      ∃ m outcome' t', run step₂ m t = .halt outcome' t' ∧ D outcome s' outcome' t'
  | .stuck => False

/-- What is known of the next state of the first machine may be added to the relation. -/
theorem Matched.and {P : σ → Prop} {s : σ} {t : τ} {x : Step ω σ} (h : Matched step₂ R D rank s t x)
    (hP : ∀ s', x = .next s' → P s') : Matched step₂ (fun s t => P s ∧ R s t) D rank s t x := by
  cases x with
  | next s' =>
      obtain ⟨m, t', hrun, hR, hprogress⟩ := h
      exact ⟨m, t', hrun, ⟨hP s' rfl, hR⟩, hprogress⟩
  | halt | stuck => exact h

/-- The rank of what a run has led to. -/
def Step.rankOf (rank : σ → Nat) : Step ω σ → Nat
  | .next s => rank s
  | _ => 0

/-- One step is one run. -/
theorem run_one (s : σ) : run step₁ 1 s = step₁ s := by
  rw [run]
  cases step₁ s <;> rfl

/-- One more step of the first machine. -/
theorem related_succ (hstep : ∀ s t, R s t → Matched step₂ R D rank s t (step₁ s)) {s : σ} {t : τ}
    {n m : Nat} (h : Step.Related R D (run step₁ n s) (run step₂ m t)) :
    ∃ m', m ≤ m' ∧ Step.Related R D (run step₁ (n + 1) s) (run step₂ m' t) ∧
      (m < m' ∨ Step.rankOf rank (run step₁ (n + 1) s) < Step.rankOf rank (run step₁ n s)) := by
  cases hs : run step₁ n s with
  | stuck =>
      rw [hs] at h
      exact h.elim
  | halt outcome s' =>
      rw [hs] at h
      cases ht : run step₂ m t with
      | next t' | stuck =>
          rw [ht] at h
          exact h.elim
      | halt outcome' t' =>
          rw [ht] at h
          refine ⟨m + 1, Nat.le_succ m, ?_, .inl (Nat.lt_succ_self m)⟩
          rw [run_of_le_of_halt hs (Nat.le_succ n), run_of_le_of_halt ht (Nat.le_succ m)]
          exact h
  | next s' =>
      rw [hs] at h
      cases ht : run step₂ m t with
      | halt outcome t' | stuck =>
          rw [ht] at h
          exact h.elim
      | next t' =>
          rw [ht] at h
          have hmatched := hstep s' t' h
          rw [run_add hs, run_one]
          cases hnext : step₁ s' with
          | stuck =>
              rw [hnext] at hmatched
              exact hmatched.elim
          | next s'' =>
              rw [hnext] at hmatched
              obtain ⟨k, t'', hrun, hR, hprogress⟩ := hmatched
              refine ⟨m + k, Nat.le_add_right m k, ?_, ?_⟩
              · rw [run_add ht, hrun]
                exact hR
              · exact hprogress.imp (Nat.lt_add_of_pos_right ·) id
          | halt outcome s'' =>
              rw [hnext] at hmatched
              obtain ⟨k, outcome', t'', hrun, hD⟩ := hmatched
              have hpos : 0 < k := Nat.pos_of_ne_zero (by rintro rfl; cases hrun)
              refine ⟨m + k, Nat.le_add_right m k, ?_, .inl (Nat.lt_add_of_pos_right hpos)⟩
              rw [run_add ht, hrun]
              exact hD

/-- A sequence that grows whenever a rank does not become smaller goes beyond every number. -/
theorem exists_le_of_progress {schedule : Nat → Nat} (ranks : Nat → Nat)
    (hmono : ∀ n, schedule n ≤ schedule (n + 1))
    (hprogress : ∀ n, schedule n < schedule (n + 1) ∨ ranks (n + 1) < ranks n) (m : Nat) :
    ∃ n, m ≤ schedule n := by
  have hgrows : ∀ n, ∃ n', schedule n < schedule n' := by
    intro n
    induction hrank : ranks n using Nat.strongRecOn generalizing n with
    | ind k ih =>
        rcases hprogress n with hlt | hsmaller
        · exact ⟨n + 1, hlt⟩
        · obtain ⟨n', hn'⟩ := ih _ (hrank ▸ hsmaller) (n + 1) rfl
          exact ⟨n', Nat.lt_of_le_of_lt (hmono n) hn'⟩
  induction m with
  | zero => exact ⟨0, Nat.zero_le _⟩
  | succ m ih =>
      obtain ⟨n, hn⟩ := ih
      obtain ⟨n', hn'⟩ := hgrows n
      exact ⟨n', Nat.lt_of_le_of_lt hn hn'⟩

/-- Machines in step have a schedule. -/
theorem exists_schedule (hstep : ∀ s t, R s t → Matched step₂ R D rank s t (step₁ s))
    {s : σ} {t : τ} (h : R s t) :
    ∃ schedule : Nat → Nat, (∀ n, schedule n ≤ schedule (n + 1)) ∧ (∀ m, ∃ n, m ≤ schedule n) ∧
      ∀ n, Step.Related R D (run step₁ n s) (run step₂ (schedule n) t) := by
  choose next hle hrelated hprogress using fun (n m : Nat)
    (hnm : Step.Related R D (run step₁ n s) (run step₂ m t)) => related_succ hstep hnm
  let follow : (n : Nat) → { m // Step.Related R D (run step₁ n s) (run step₂ m t) } := fun n =>
    Nat.rec ⟨0, h⟩ (fun n m => ⟨next n m.1 m.2, hrelated n m.1 m.2⟩) n
  have hmono : ∀ n, (follow n).1 ≤ (follow (n + 1)).1 := fun n => hle n _ (follow n).2
  exact ⟨fun n => (follow n).1, hmono,
    exists_le_of_progress (fun n => Step.rankOf rank (run step₁ n s)) hmono
      fun n => hprogress n _ (follow n).2,
    fun n => (follow n).2⟩

/-- By a schedule the first machine comes to every halt of the second. -/
theorem exists_halt_of_schedule {schedule : Nat → Nat}
    (hunbounded : ∀ m, ∃ n, m ≤ schedule n) {s : σ}
    {t t' : τ} (hrelated : ∀ n, Step.Related R D (run step₁ n s) (run step₂ (schedule n) t))
    {m : Nat} {outcome' : ω'} (h : run step₂ m t = .halt outcome' t') :
    ∃ n outcome s', run step₁ n s = .halt outcome s' ∧ D outcome s' outcome' t' := by
  obtain ⟨n, hn⟩ := hunbounded m
  have hrel := hrelated n
  rw [run_of_le_of_halt h hn] at hrel
  cases hs : run step₁ n s with
  | next s' | stuck =>
      rw [hs] at hrel
      exact hrel.elim
  | halt outcome s' =>
      rw [hs] at hrel
      exact ⟨n, outcome, s', hs, hrel⟩

/-- By a schedule the second machine never gets stuck. -/
theorem run_ne_stuck_of_schedule {schedule : Nat → Nat}
    (hunbounded : ∀ m, ∃ n, m ≤ schedule n) {s : σ}
    {t : τ} (hrelated : ∀ n, Step.Related R D (run step₁ n s) (run step₂ (schedule n) t))
    (m : Nat) : run step₂ m t ≠ .stuck := by
  intro hstuck
  obtain ⟨n, hn⟩ := hunbounded m
  have hrel := hrelated n
  rw [run_of_le_of_ne_next (fun _ hnext => nomatch hstuck.symm.trans hnext) hn, hstuck] at hrel
  cases hs : run step₁ n s <;> rw [hs] at hrel <;> exact hrel

/-- Where the first machine halts, the second does too. -/
theorem Step.Related.exists_halt {outcome : ω} {s : σ} {y : Step ω' τ}
    (h : Step.Related R D (.halt outcome s) y) :
    ∃ outcome' t, y = .halt outcome' t ∧ D outcome s outcome' t := by
  cases y with
  | next t | stuck => exact h.elim
  | halt outcome' t => exact ⟨outcome', t, rfl, h⟩

end SlotJit.Semantics

import Mathlib
/-!
# Computations that may fail

Taking apart computations in `Except` that succeed.
-/

namespace SlotJit

variable {α β ε : Type}

/-- After a success the other computation goes on with the result. -/
theorem ok_bind (a : α) (f : α → Except ε β) : (Except.ok a >>= f) = f a := rfl

/-- A computation followed by another succeeds if both do. -/
theorem bind_eq_ok {x : Except ε α} {f : α → Except ε β} {b : β} :
    x >>= f = .ok b ↔ ∃ a, x = .ok a ∧ f a = .ok b := by
  cases x with
  | error e => simp [bind, Except.bind]
  | ok a => simp [bind, Except.bind]

/-- A computation followed by another fails if one of them does. -/
theorem bind_eq_error {x : Except ε α} {f : α → Except ε β} {e : ε} :
    x >>= f = .error e ↔ x = .error e ∨ ∃ a, x = .ok a ∧ f a = .error e := by
  cases x with
  | error e => simp [bind, Except.bind]
  | ok a => simp [bind, Except.bind]

/-- Where making a list element by element fails. -/
theorem exists_of_mapM_error {f : α → Except ε β} {as : List α} {e : ε} (h : as.mapM f = .error e) :
    ∃ a ∈ as, f a = .error e := by
  induction as with
  | nil => cases h
  | cons first rest ih =>
      rw [List.mapM_cons] at h
      rcases bind_eq_error.mp h with h | ⟨b, -, h⟩
      · exact ⟨first, List.mem_cons_self, h⟩
      · rcases bind_eq_error.mp h with h | ⟨bs, -, h⟩
        · obtain ⟨a, ha, hfails⟩ := ih h
          exact ⟨a, List.mem_cons_of_mem _ ha, hfails⟩
        · cases h

/-- A list that is made element by element has what each element is made to, in its place. -/
theorem getElem?_of_mapM {f : α → Except ε β} {as : List α} {bs : List β} (h : as.mapM f = .ok bs) :
    bs.length = as.length ∧
      ∀ (i : Nat) (a : α), as[i]? = some a → ∃ b, f a = .ok b ∧ bs[i]? = some b := by
  induction as generalizing bs with
  | nil =>
      cases h
      exact ⟨rfl, fun i a ha => nomatch ha⟩
  | cons first rest ih =>
      rw [List.mapM_cons] at h
      obtain ⟨b, hfirst, h⟩ := bind_eq_ok.mp h
      obtain ⟨tail, hrest, h⟩ := bind_eq_ok.mp h
      cases h
      obtain ⟨hlength, hget⟩ := ih hrest
      refine ⟨by rw [List.length_cons, List.length_cons, hlength], fun i a ha => ?_⟩
      cases i with
      | zero =>
          cases ha
          exact ⟨b, hfirst, rfl⟩
      | succ i => exact hget i a ha

/-- What stands in such a list was made from what stands in the same place. -/
theorem exists_of_mapM {f : α → Except ε β} {as : List α} {bs : List β} (h : as.mapM f = .ok bs)
    {i : Nat} {b : β} (hb : bs[i]? = some b) : ∃ a, as[i]? = some a ∧ f a = .ok b := by
  obtain ⟨hlength, hget⟩ := getElem?_of_mapM h
  have hlt := (List.getElem?_eq_some_iff.mp hb).1
  have ha := List.getElem?_eq_getElem (hlength ▸ hlt : i < as.length)
  obtain ⟨b', hb', hget'⟩ := hget i _ ha
  obtain rfl : b' = b := Option.some.inj (hget'.symm.trans hb)
  exact ⟨_, ha, hb'⟩

/-- Lists of which one is made element by element from the other. -/
theorem forall₂_of_mapM {f : α → Except ε β} {as : List α} {bs : List β} (h : as.mapM f = .ok bs) :
    List.Forall₂ (fun a b => f a = .ok b) as bs := by
  obtain ⟨hlength, hget⟩ := getElem?_of_mapM h
  refine List.forall₂_iff_get.mpr ⟨hlength.symm, fun i ha hb => ?_⟩
  obtain ⟨b, hb', hget⟩ := hget i _ (List.getElem?_eq_getElem ha)
  rw [List.getElem?_eq_getElem hb] at hget
  cases hget
  exact hb'

/-- Lists of which one is made from the other one with numbers. -/
theorem forall₂_of_mapM_zipIdx {f : α × Nat → Except ε β} {as : List α} {bs : List β}
    (h : as.zipIdx.mapM f = .ok bs) : List.Forall₂ (fun a b => ∃ i, f (a, i) = .ok b) as bs := by
  rw [← List.zipIdx_map_fst 0 as, List.forall₂_map_left_iff]
  exact (forall₂_of_mapM h).imp fun a b hb => ⟨a.2, hb⟩

/-- What stands in the second of two related lists has something related to it in the first. -/
theorem exists_of_forall₂ {R : α → β → Prop} {as : List α} {bs : List β} (h : List.Forall₂ R as bs)
    {b : β} (hb : b ∈ bs) : ∃ a ∈ as, R a b := by
  induction h with
  | nil => cases hb
  | cons hfirst _ ih =>
      rcases List.mem_cons.mp hb with rfl | hb
      · exact ⟨_, List.mem_cons_self, hfirst⟩
      · obtain ⟨a, ha, hrel⟩ := ih hb
        exact ⟨a, List.mem_cons_of_mem _ ha, hrel⟩

/-- If not all elements of a list have a property, there is a first one without it. -/
theorem forall_or_exists_first (p : α → Prop) (as : List α) :
    (∀ a ∈ as, p a) ∨
      ∃ before a after, as = before ++ a :: after ∧ (∀ b ∈ before, p b) ∧ ¬ p a := by
  induction as with
  | nil => exact .inl fun a ha => absurd ha List.not_mem_nil
  | cons first rest ih =>
      by_cases hfirst : p first
      · rcases ih with hrest | ⟨before, a, after, rfl, hbefore, ha⟩
        · exact .inl (List.forall_mem_cons.mpr ⟨hfirst, hrest⟩)
        · exact .inr ⟨first :: before, a, after, rfl,
            List.forall_mem_cons.mpr ⟨hfirst, hbefore⟩, ha⟩
      · exact .inr ⟨[], first, rest, rfl, fun b hb => absurd hb List.not_mem_nil, hfirst⟩

end SlotJit

import Mathlib
import SlotJit.Ieee.Comparison
import SlotJit.Ieee.Conversion

/-!
# Numbers without their fractions

A finite datum is the rational number `± significand * 2 ^ exponent` (`dyadic`). Dropping its
fraction rounds that number towards zero (`truncate?_of_finite`). A conversion to an integer type
keeps the result if it is in range, and else gives the end of the range on the number's side
(`Datum.saturated`).

## Main results

* `truncate?_of_finite`: `Format.truncate?` is rounding towards zero.
* `compare?_self`: a pattern compares with itself unless it is a NaN.
* `saturated_of_ends`: beyond the range, the sign of a number decides.
* `negative_decode`: the sign of a datum is the sign bit of its pattern.
-/

namespace SlotJit.Ieee

/-! ### Rounding towards zero -/

/-- The integer part of a number. -/
def truncation (q : ℚ) : Int := if q < 0 then ⌈q⌉ else ⌊q⌋

/-- A number that is not negative is rounded down. -/
theorem truncation_of_nonneg {q : ℚ} (hq : 0 ≤ q) : truncation q = ⌊q⌋ := if_neg (not_lt.mpr hq)

/-- A negative one is rounded up. -/
theorem truncation_neg_of_nonneg {q : ℚ} (hq : 0 ≤ q) : truncation (-q) = -⌊q⌋ := by
  rcases hq.eq_or_lt with rfl | hpos
  · simp [truncation]
  · rw [truncation, if_pos (neg_lt_zero.mpr hpos), Int.ceil_neg]

/-- The number `± significand * 2 ^ exponent`. -/
def dyadic (negative : Bool) (significand : Nat) (exponent : Int) : ℚ :=
  let magnitude : ℚ := significand * 2 ^ exponent
  if negative then -magnitude else magnitude

/-- The integer part of a magnitude is the natural quotient of its two sides. -/
theorem floor_magnitude (m : Nat) (e : Int) :
    ⌊(m * 2 ^ e : ℚ)⌋ = (((scaled m 1 e).1 / (scaled m 1 e).2 : Nat) : Int) := by
  have hratio : (m * 2 ^ e : ℚ) = (((scaled m 1 e).1 : Int) : ℚ) / ((scaled m 1 e).2 : ℚ) := by
    unfold scaled
    split
    · rename_i he
      obtain ⟨k, rfl⟩ := Int.eq_ofNat_of_zero_le he
      simp
    · rename_i he
      obtain ⟨k, rfl⟩ : ∃ k : Nat, e = -(k : Int) := ⟨(-e).toNat, by omega⟩
      simp [div_eq_mul_inv]
  rw [hratio, Rat.floor_intCast_div_natCast, Int.natCast_ediv]

variable {f : Format} {bits : Nat} {s : Bool} {m : Nat} {e : Int}

/-- A finite number without its fraction is rounded towards zero. -/
theorem truncate?_of_finite (h : f.decode bits = .finite s m e) :
    f.truncate? bits = some (truncation (dyadic s m e)) := by
  have hpos : (0 : ℚ) ≤ m * 2 ^ e := by positivity
  rw [Format.truncate?, h]
  cases s with
  | false => exact congrArg some ((truncation_of_nonneg hpos).trans (floor_magnitude m e)).symm
  | true =>
      refine congrArg some ((truncation_neg_of_nonneg hpos).trans ?_).symm
      rw [floor_magnitude]
      rfl

/-- Rounding towards zero does not change sides. -/
theorem truncation_dyadic_sign (s : Bool) (m : Nat) (e : Int) :
    if s then truncation (dyadic s m e) ≤ 0 else 0 ≤ truncation (dyadic s m e) := by
  have hpos : (0 : ℚ) ≤ m * 2 ^ e := by positivity
  have hfloor : 0 ≤ ⌊(m * 2 ^ e : ℚ)⌋ := Int.floor_nonneg.mpr hpos
  cases s with
  | false => exact hfloor.trans_eq (truncation_of_nonneg hpos).symm
  | true => exact (truncation_neg_of_nonneg hpos).trans_le (neg_nonpos.mpr hfloor)

/-! ### Integers of a width -/

namespace Datum

/-- The integer of a width that a datum is converted to. A NaN becomes zero, and a number loses its
fraction. Where the result is above or below the range it is the greatest or the least integer. -/
def saturated (w : Nat) : Datum → Int
  | .nan .. => 0
  | .infinity negative => if negative then (BitVec.intMin w).toInt else (BitVec.intMax w).toInt
  | .finite negative significand exponent =>
    let n := truncation (dyadic negative significand exponent)
    if n < (BitVec.intMin w).toInt then (BitVec.intMin w).toInt
    else if (BitVec.intMax w).toInt < n then (BitVec.intMax w).toInt
    else n

/-- Whether a datum has a minus sign. -/
def negative : Datum → Bool
  | .nan negative _ => negative
  | .infinity negative => negative
  | .finite negative _ _ => negative

end Datum

/-- A number at an end of the range or beyond it is converted to the end on its side. -/
theorem saturated_of_ends {w : Nat} (hw : 0 < w)
    (h : truncation (dyadic s m e) ≤ (BitVec.intMin w).toInt ∨
      (BitVec.intMax w).toInt < truncation (dyadic s m e)) :
    (Datum.finite s m e).saturated w =
      if s then (BitVec.intMin w).toInt else (BitVec.intMax w).toInt := by
  have hlow := BitVec.toInt_intMin_of_pos hw
  have hhigh : (BitVec.intMax w).toInt = _ := BitVec.toInt_intMax
  have hpos : (0 : Int) < 2 ^ (w - 1) := by positivity
  have hsign := truncation_dyadic_sign s m e
  rw [Datum.saturated]
  cases s with
  | false =>
      rw [if_neg Bool.false_ne_true] at hsign ⊢
      rw [if_neg (by omega), if_pos (by omega)]
  | true =>
      rw [if_pos rfl] at hsign ⊢
      split
      · rfl
      · rw [if_neg (by omega)]
        omega

/-- Not a number becomes zero. -/
theorem saturated_of_isNaN {w : Nat} (h : f.isNaN bits = true) :
    (f.decode bits).saturated w = 0 := by
  unfold Format.isNaN at h
  split at h
  · rename_i hdatum
    rw [hdatum]
    rfl
  · cases h

/-- The sign of a datum is the sign bit of its pattern. -/
theorem negative_decode (f : Format) (bits : Nat) :
    (f.decode bits).negative = decide (bits / f.signBit % 2 = 1) := by
  unfold Format.decode
  simp only
  split
  · split <;> rfl
  · split <;> rfl

/-- A pattern compares with itself unless it is a NaN. -/
theorem compare?_self (f : Format) (bits : Nat) :
    f.compare? bits bits = if f.isNaN bits then none else some .eq := by
  unfold Format.compare? Format.isNaN
  cases f.decode bits with
  | nan s p => rfl
  | infinity s => simp
  | finite s m e => simp [Format.compareFinite]

end SlotJit.Ieee

import SlotJit.Ieee.Format

/-!
# Rounding to a format

Every operation computes its exact result as a ratio of natural numbers scaled by a power of two and
rounds once, to the nearest number of the format and to the even one of two that are equally near.
-/

namespace SlotJit.Ieee

/-- `n / d` rounded to the nearest natural number, a half to the even neighbour. -/
def divNearestEven (n d : Nat) : Nat :=
  let q := n / d
  let r := n % d
  if 2 * r < d then q
  else if d < 2 * r then q + 1
  else if q % 2 = 0 then q else q + 1

/-- The two sides of the ratio `n / d * 2 ^ shift`. -/
def scaled (n d : Nat) (shift : Int) : Nat × Nat :=
  if 0 ≤ shift then (n * Nat.pow 2 shift.toNat, d) else (n, d * Nat.pow 2 (-shift).toNat)

/-- The largest `k` with `2 ^ k ≤ n / d`, for positive `n` and `d`. -/
def log2Ratio (n d : Nat) : Int :=
  let k : Int := (n.log2 : Int) - (d.log2 : Int)
  let (a, b) := scaled n d (-k)
  if b ≤ a then k else k - 1

namespace Format

/-- The magnitude pattern nearest to `n / d * 2 ^ e`, with `d` positive; infinity when the rounded
number has no pattern. The unit of the last place is `2 ^ place`; the pattern of a number
`m * 2 ^ place` is `m` plus one binade for each step of `place` above the least one. -/
def roundMagnitude (f : Format) (n d : Nat) (e : Int) : Nat :=
  if n = 0 then 0
  else
    let place := max (log2Ratio n d + e - (f.fractionBits : Int)) f.minExponent
    let (a, b) := scaled n d (e - place)
    let bits := (place - f.minExponent).toNat * Nat.pow 2 f.fractionBits + divNearestEven a b
    min bits f.infinityBits

/-- The pattern nearest to `± n / d * 2 ^ e`. -/
def round (f : Format) (negative : Bool) (n d : Nat) (e : Int) : Nat :=
  f.withSign negative (f.roundMagnitude n d e)

end Format

end SlotJit.Ieee

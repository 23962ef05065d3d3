/-!
# Hexadecimal text

Lowercase hexadecimal digits, as messages and references are written.
-/

namespace SlotJit.Text

/-- The lowercase hexadecimal digits of `n`; zero is `0`. -/
def hex (n : Nat) : String := String.ofList (Nat.toDigits 16 n)

/-- The hexadecimal digits of `n`, filled up with zeros on the left to at least `width` digits. -/
def hexPadded (width n : Nat) : String :=
  let digits := Nat.toDigits 16 n
  String.ofList (List.replicate (width - digits.length) '0' ++ digits)

/-- Each byte as two hexadecimal digits. -/
def hexBytes (bytes : List UInt8) : String :=
  String.join (bytes.map fun b => hexPadded 2 b.toNat)

end SlotJit.Text

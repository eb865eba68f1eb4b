/-!
# Decimal numerals as double-precision numbers

A numeral made of digits and a decimal fraction stands for a quotient of natural numbers.
Its double is the nearest one, a tie going to the even significand; a value beyond the
largest double becomes infinity. A double is given by its 64 bits.
-/

namespace CaptureLR

/-- The quotient rounded to the nearest natural number, ties to even. -/
def divideToEven (num den : Nat) : Nat :=
  let q := num / den
  let r := num % den
  if 2 * r < den then q
  else if 2 * r = den then q + q % 2
  else q + 1

/-- The quotient of `num` by `den`, scaled by `2 ^ shift` and rounded. -/
def scaledQuotient (num den : Nat) (shift : Int) : Nat :=
  if 0 ≤ shift then divideToEven (num * Nat.pow 2 shift.toNat) den
  else divideToEven num (den * Nat.pow 2 (-shift).toNat)

/-- The exponent `e` for which the quotient lies in `[2 ^ (e + 52), 2 ^ (e + 53))`, but not
below the least exponent of a double. -/
def doubleExponent (num den : Nat) : Int :=
  let guess : Int := Int.ofNat num.log2 - Int.ofNat den.log2 - 52
  let below : Bool :=
    if 0 ≤ guess + 52 then decide (num < den * Nat.pow 2 (guess + 52).toNat)
    else decide (num * Nat.pow 2 (-(guess + 52)).toNat < den)
  max (-1074) (if below then guess - 1 else guess)

/-- The bits of the double nearest to the quotient of two natural numbers. -/
def doubleBits (num den : Nat) : UInt64 :=
  if num = 0 then 0
  else
    let e := doubleExponent num den
    let m := scaledQuotient num den (-e)
    let (m, e) := if Nat.pow 2 53 ≤ m then (m / 2, e + 1) else (m, e)
    if m < Nat.pow 2 52 then UInt64.ofNat m
    else if 971 < e then 0x7FF0000000000000
    else UInt64.ofNat ((e + 1075).toNat * Nat.pow 2 52 + (m - Nat.pow 2 52))

/-- The natural number a list of decimal digits stands for. -/
def digitsValue (digits : List Char) : Nat :=
  digits.foldl (fun n c => 10 * n + (c.toNat - '0'.toNat)) 0

/-- The bits of the double nearest to a numeral of digits with at most one point. -/
def numeralBits (numeral : List Char) : UInt64 :=
  let fraction := (numeral.dropWhile (· ≠ '.')).drop 1
  doubleBits (digitsValue (numeral.filter (· ≠ '.'))) (Nat.pow 10 fraction.length)

example : numeralBits "1.5".toList = 0x3FF8000000000000 := by decide

end CaptureLR

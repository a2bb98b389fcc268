/-
  Numbers in binary floating point with 64 bits, given by their bits.

  * `Magnitude` is a finite number without its sign: `mantissa · 2 ^ exponent`;
  * `magnitude` reads it off the bits;
  * `nearest` gives the bits of the number nearest to a quotient of two naturals,
    a tie going to the even mantissa, and infinity past the largest number;
  * `ofDecimal` reads a decimal number: digits, with a count of those that stand
    after the point.
-/

namespace DanishProse.Binary64

/-- The least mantissa of fifty-three bits, one more than the largest fraction. -/
def leastFull : Nat := 0x10000000000000

/-- The bits of positive infinity. -/
def infinity : UInt64 := 0x7ff0000000000000

/-- The sign bit. -/
def isNegative (bits : UInt64) : Bool :=
  bits >>> 63 == 1

/-- The eleven exponent bits. -/
def exponentField (bits : UInt64) : Nat :=
  ((bits >>> 52) &&& 0x7ff).toNat

/-- The fifty-two fraction bits. -/
def fractionField (bits : UInt64) : Nat :=
  (bits &&& 0xfffffffffffff).toNat

/-- All exponent bits are set, and some fraction bit. -/
def isNaN (bits : UInt64) : Bool :=
  exponentField bits == 0x7ff && fractionField bits != 0

/-- All exponent bits are set, and no fraction bit. -/
def isInfinite (bits : UInt64) : Bool :=
  exponentField bits == 0x7ff && fractionField bits == 0

/-- A natural number times a power of two. -/
structure Magnitude where
  mantissa : Nat
  exponent : Int
  /-- The next smaller number is only half as far away as the next larger one. -/
  atPowerOfTwo : Bool

/-- The magnitude of a finite number. -/
def magnitude (bits : UInt64) : Magnitude :=
  let e := exponentField bits
  let f := fractionField bits
  if e = 0 then ⟨f, -1074, false⟩
  else ⟨leastFull + f, (e : Int) - 1075, f == 0 && 1 < e⟩

/-- A quotient rounded to the nearest natural number, a tie to the even one. -/
def roundToEven (num den : Nat) : Nat :=
  let q := num / den
  let r := num % den
  if 2 * r < den then q
  else if den < 2 * r then q + 1
  else q + q % 2

/-- The quotient `num / (den · 2 ^ e)` as a fraction of naturals. -/
def scaled (num den : Nat) (e : Int) : Nat × Nat :=
  (num * Nat.pow 2 (-e).toNat, den * Nat.pow 2 e.toNat)

/-- The bits of the number nearest to `num / den`, for a positive `den`. -/
def nearest (num den : Nat) : UInt64 :=
  if num = 0 then 0 else
    let guess : Int := max ((Nat.log2 num : Int) - Nat.log2 den - 53) (-1074)
    let (a, b) := scaled num den guess
    let e := if 2 * leastFull ≤ a / b then guess + 1 else guess
    let (a, b) := scaled num den e
    let m := roundToEven a b
    if m < leastFull then m.toUInt64
    else
      let field := (e + 1075).toNat
      if 2047 ≤ field then infinity
      else (field * leastFull + (m - leastFull)).toUInt64

/-- The number with the given digits, the last `places` of them after the
    decimal point. -/
def ofDecimal (digits places : Nat) : UInt64 :=
  nearest digits (Nat.pow 10 places)

end DanishProse.Binary64

/-
  The shortest decimal text of a floating point number.

  Of all decimal numbers that read back as the given one, take those with the
  fewest digits, and of these the nearest; of two equally near ones the larger.

  * `Interval` holds the numbers that read back, over a common denominator;
  * `onGrid` looks at the two neighbours of the number among the multiples of a
    power of ten; no other multiple is nearer, and if any multiple lies in the
    interval then one of these two does;
  * `shortest` takes the coarsest grid with a hit;
  * `text` writes the digits out in full, without an exponent.
-/
import DanishProse.Decimal.Binary64

namespace DanishProse.Binary64

/-- A number between the ends of the interval that reads back as it. -/
structure Interval where
  low : Nat
  value : Nat
  high : Nat
  /-- The ends themselves read back as the number. -/
  closed : Bool

/-- The interval of a magnitude, in units of `2 ^ (exponent - 2)`. -/
def Magnitude.interval (x : Magnitude) : Interval :=
  ⟨4 * x.mantissa - (if x.atPowerOfTwo then 1 else 2), 4 * x.mantissa, 4 * x.mantissa + 2,
    x.mantissa % 2 == 0⟩

/-- A decimal number `digits · 10 ^ power`. -/
structure Decimal where
  digits : Nat
  power : Int

/-- The multiple of `10 ^ power` that is nearest to the number, among its two
    neighbours that read back. -/
def Magnitude.onGrid (x : Magnitude) (power : Int) : Option Decimal :=
  let e := x.exponent - 2
  let up := Nat.pow 2 e.toNat * Nat.pow 10 (-power).toNat
  let unit := Nat.pow 2 (-e).toNat * Nat.pow 10 power.toNat
  let i := x.interval
  let below := i.value * up / unit
  let readsBack (d : Nat) : Bool :=
    if i.closed then decide (i.low * up ≤ d * unit ∧ d * unit ≤ i.high * up)
    else decide (i.low * up < d * unit ∧ d * unit < i.high * up)
  let nearerAbove : Bool := decide ((below + 1) * unit - i.value * up ≤ i.value * up - below * unit)
  match readsBack below, readsBack (below + 1) with
  | true, true => some ⟨if nearerAbove then below + 1 else below, power⟩
  | true, false => some ⟨below, power⟩
  | false, true => some ⟨below + 1, power⟩
  | false, false => none

/-- A power of ten above the number, from the length of its mantissa in bits. -/
def Magnitude.topPower (x : Magnitude) : Int :=
  ((Nat.log2 x.mantissa : Int) + 1 + x.exponent) * 30103 / 100000 + 1

/-- A power of ten whose multiples the number is one of. -/
def Magnitude.exactPower (x : Magnitude) : Int :=
  min (x.exponent - 2) 0

/-- The shortest decimal number that reads back.  The number itself lies on the
    last grid, so one is always found. -/
def Magnitude.shortest (x : Magnitude) : Decimal :=
  ((List.range ((x.topPower - x.exactPower).toNat + 1)).findSome? fun (n : Nat) =>
    x.onGrid (x.topPower - (n : Int))).getD ⟨0, 0⟩

/-- A decimal number written out: digits, and a point where a fraction follows. -/
def Decimal.text (d : Decimal) : String :=
  let digits := Nat.toDigits 10 d.digits
  if 0 ≤ d.power then String.ofList (digits ++ List.replicate d.power.toNat '0')
  else
    let places := (-d.power).toNat
    let whole := digits.take (digits.length - places)
    let fraction := List.replicate (places - digits.length) '0' ++
      digits.drop (digits.length - places)
    String.ofList ((if whole.isEmpty then ['0'] else whole) ++ '.' :: fraction)

/-- The text of a number: a minus sign for a negative one, zero included. -/
def text (bits : UInt64) : String :=
  if isNaN bits then "NaN"
  else
    let sign := if isNegative bits then "-" else ""
    if isInfinite bits then sign ++ "inf"
    else
      let x := magnitude bits
      if x.mantissa = 0 then sign ++ "0" else sign ++ x.shortest.text

end DanishProse.Binary64

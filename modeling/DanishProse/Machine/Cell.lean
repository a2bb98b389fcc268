/-
  Arithmetic on the cells of the stack.

  A cell is 64 bits that each operation reads as it pleases: as a natural
  number, as a signed number, as a floating point number, or as a truth value,
  which is true unless it is zero.

  Integers wrap.  Floating point results are rounded to nearest; a NaN that goes
  in comes out, made quiet, and of two the first.
-/
import DanishProse.Decimal.Binary64

namespace DanishProse

/-- A cell of the stack. -/
abbrev Cell := UInt64

namespace Cell

/-- The cell of a truth value. -/
def ofBool (b : Bool) : Cell :=
  if b then 1 else 0

/-- Everything but zero is true. -/
def isTrue (c : Cell) : Bool :=
  c ≠ 0

/-! ## Integers -/

/-- The product of signed numbers, which has the bits of any other product. -/
def signedMul (a b : Cell) : Cell :=
  (a.toInt64 * b.toInt64).toUInt64

/-- One signed number is less than another. -/
def signedLess (a b : Cell) : Bool :=
  a.toInt64 < b.toInt64

/-- Why a division has no result. -/
inductive DivisionError where
  | byZero
  | overflow
deriving DecidableEq

/-- The quotient of natural numbers, rounded down. -/
def unsignedDiv (a b : Cell) : Except DivisionError Cell :=
  if b = 0 then .error .byZero else .ok (a / b)

/-- The quotient of signed numbers, rounded toward zero.  Only the quotient of
    the smallest number by minus one does not fit. -/
def signedDiv (a b : Cell) : Except DivisionError Cell :=
  if b = 0 then .error .byZero
  else if a.toInt64 = Int64.minValue ∧ b.toInt64 = -1 then .error .overflow
  else .ok (a.toInt64 / b.toInt64).toUInt64

/-! ## Floating point -/

/-- A NaN that signals nothing. -/
def quiet (nan : Cell) : Cell :=
  nan ||| 0x8000000000000

/-- The NaN of an operation that has no result. -/
def defaultNaN : Cell := 0xfff8000000000000

/-- An operation on floating point numbers. -/
def floatOp (op : Float → Float → Float) (a b : Cell) : Cell :=
  if Binary64.isNaN a then quiet a
  else if Binary64.isNaN b then quiet b
  else
    let r := op (Float.ofBits a) (Float.ofBits b)
    if r.isNaN then defaultNaN else r.toBits

/-- Two floating point numbers are equal: zeros of both signs are, and a NaN equals nothing. -/
def floatEqual (a b : Cell) : Bool :=
  Float.ofBits a == Float.ofBits b

/-- One floating point number is less than another; a NaN is neither less nor greater. -/
def floatLess (a b : Cell) : Bool :=
  Float.ofBits a < Float.ofBits b

/-- The floating point number nearest to a signed number. -/
def floatOfSigned (a : Cell) : Cell :=
  a.toInt64.toFloat.toBits

/-- A floating point number without its fraction.  Numbers out of range give the
    nearest end of it, and a NaN gives zero. -/
def signedOfFloat (a : Cell) : Cell :=
  (Float.ofBits a).toInt64.toUInt64

end Cell

end DanishProse

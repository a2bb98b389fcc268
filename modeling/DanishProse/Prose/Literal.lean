/-
  Values that can be written down in a program.

  A floating point number is kept as its bits.  It is written with a decimal
  comma, and always with a fraction.
-/
import DanishProse.Decimal.Shortest

namespace DanishProse

/-- A value in a program. -/
inductive Literal where
  | integer (value : Int64)
  | float (bits : UInt64)
  | boolean (value : Bool)
deriving DecidableEq

/-- The word for a truth value. -/
def truthWord (value : Bool) : String :=
  if value then "sand" else "falsk"

/-- A literal as it is written. -/
def Literal.text : Literal → String
  | integer value => toString value.toInt
  | float bits =>
    let digits := (Binary64.text bits).toList.map fun c => if c = '.' then ',' else c
    String.ofList (if digits.contains ',' then digits else digits ++ [',', '0'])
  | boolean value => truthWord value

end DanishProse

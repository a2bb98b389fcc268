/-
  What can be wrong with a source text, and reports of it.

  * `Problem` lists the causes and `Problem.message` words them;
  * a `Report` is a problem at a place; `Report.line` names the place, file
    included.
-/
import DanishProse.Report.Location

namespace DanishProse

/-- What is wrong. -/
inductive Problem where
  | invalidOperator
  | unexpectedCharacter
  | invalidFloat
  | unexpectedToken (wanted given : String)
  | expectedClause
  | unresolvedType (name : String)
  | unresolvedFunction (pattern : String)
  | typeMismatch (wanted given : String)
  | invalidAssignmentTarget
deriving DecidableEq

/-- The words for a problem. -/
def Problem.message : Problem → String
  | invalidOperator => "Invalid operator"
  | unexpectedCharacter => "Unexpected character"
  | invalidFloat => "Invalid floating point literal."
  | unexpectedToken wanted given => s!"Unexpected token\n    Wanted: {wanted}\n    Given:  {given}"
  | expectedClause => "Expected clause"
  | unresolvedType name => s!"Unresolved type\n    Name: {name}"
  | unresolvedFunction pattern => s!"Unresolved function\n    Pattern: {pattern}"
  | typeMismatch wanted given => s!"Type mismatch\n    Wanted: {wanted}\n    Given:  {given}"
  | invalidAssignmentTarget => "Invalid assignment target"

/-- A problem, and where it was found. -/
structure Report where
  problem : Problem
  location : Location
deriving DecidableEq

/-- A report on one line, as far as its message allows. -/
def Report.line (r : Report) (file : String) : String :=
  s!"{r.location.text file}: {r.problem.message}"

end DanishProse

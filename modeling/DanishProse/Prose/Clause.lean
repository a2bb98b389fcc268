/-
  Clauses: words and values in a row, with clause lists in brackets among them.

  A clause list is what a sentence is made of; its clauses are separated by
  commas.  `clausesText` writes a list out, with `og` after each comma.
-/
import DanishProse.Prose.Literal
import DanishProse.Report.Location

namespace DanishProse

mutual

/-- One position of a clause. -/
inductive Part where
  | word (text : String)
  | literal (value : Literal)
  | list (clauses : List Clause)

/-- A clause, and where it begins. -/
inductive Clause where
  | mk (location : Location) (parts : List Part)

end

namespace Clause

/-- Where a clause begins. -/
def location : Clause → Location
  | mk l _ => l

/-- The positions of a clause. -/
def parts : Clause → List Part
  | mk _ ps => ps

end Clause

mutual

/-- A part as it is written. -/
def Part.text : Part → String
  | .word w => w
  | .literal v => v.text
  | .list cs => "(" ++ clausesText cs ++ ")"

/-- A clause as it is written. -/
def Clause.text : Clause → String
  | .mk _ ps => partsText ps

/-- Parts with spaces between them. -/
def partsText : List Part → String
  | [] => ""
  | [p] => p.text
  | p :: q :: ps => p.text ++ " " ++ partsText (q :: ps)

/-- Clauses with a comma and `og` between them. -/
def clausesText : List Clause → String
  | [] => ""
  | [c] => c.text
  | c :: d :: cs => c.text ++ ", og " ++ clausesText (d :: cs)

end

end DanishProse

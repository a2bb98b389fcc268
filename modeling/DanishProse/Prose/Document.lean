/-
  Documents: what a source text says before its words are looked up.

  * A `Pattern` is the form of calls to a function, words and parameters in a
    row;
  * a `Sentence` is one step of a body;
  * a `Definition` is a function with its body, and a `Document` is a list of
    definitions.

  `text` writes each of them in a standard form.
-/
import DanishProse.Prose.Clause
import DanishProse.Text.Blank
import DanishProse.Text.Field

namespace DanishProse

/-! ## Patterns -/

/-- One position of a pattern. -/
inductive PatternPart where
  | word (name : String)
  | parameter (name typeName : String)
deriving DecidableEq

/-- The word, or the name of the parameter. -/
def PatternPart.name : PatternPart → String
  | word name => name
  | parameter name _ => name

/-- The name of the type of a parameter. -/
def PatternPart.typeName? : PatternPart → Option String
  | word _ => none
  | parameter _ typeName => some typeName

/-- A position as it is written; a parameter stands in brackets. -/
def PatternPart.text : PatternPart → String
  | word name => name
  | parameter name typeName => s!"({name} som {typeName})"

/-- The form of calls to a function. -/
structure Pattern where
  parts : List PatternPart
deriving DecidableEq

namespace Pattern

/-- The positions that take a value. -/
def parameters (p : Pattern) : List PatternPart :=
  p.parts.filter fun part => part.typeName?.isSome

/-- A pattern as it is written. -/
def text (p : Pattern) : String :=
  Text.joined " " (p.parts.map PatternPart.text)

/-- One position in short form: a name, then a colon and the type if it is a
    parameter. -/
def partOfShort (word : List Char) : PatternPart :=
  match word.dropWhile (· ≠ ':') with
  | [] => .word (String.ofList word)
  | _ :: typeName =>
    .parameter (String.ofList (word.takeWhile (· ≠ ':'))) (String.ofList typeName)

/-- A pattern in short form, such as `gang A:heltal med B:heltal`. -/
def ofShort (short : String) : Pattern :=
  ⟨(Text.words short.toList).map partOfShort⟩

end Pattern

/-! ## Sentences -/

/-- One step of a body. -/
inductive Sentence where
  | declare (name typeName : String) (location : Location)
  | express (clauses : List Clause)
  | giveBack (clauses : List Clause)
  | when (condition : List Clause) (body : List Sentence)
  | whenElse (condition : List Clause) (body otherwise : List Sentence)
  | loop (condition : List Clause) (body : List Sentence)

mutual

/-- A sentence as it is written. -/
def Sentence.text : Sentence → String
  | .declare name typeName _ => s!"Lad {name} være et {typeName}."
  | .express cs => clausesText cs ++ "."
  | .giveBack cs => "Tilbagegiv " ++ clausesText cs ++ "."
  | .when cs body => "Hvis " ++ clausesText cs ++ ".\nGoddag.\n" ++ linesText body ++ "Farvel."
  | .whenElse cs body otherwise =>
    "Hvis " ++ clausesText cs ++ ".\nGoddag.\n" ++ linesText body ++ "Farvel.\nEllers.\nGoddag.\n" ++
      linesText otherwise ++ "Farvel."
  | .loop cs body => "Imens " ++ clausesText cs ++ ".\nGoddag.\n" ++ linesText body ++ "Farvel."

/-- Sentences, each followed by the end of its line. -/
def linesText : List Sentence → String
  | [] => ""
  | s :: ss => s.text ++ "\n" ++ linesText ss

end

/-- A block: its sentences between a greeting and a farewell. -/
def blockText (body : List Sentence) : String :=
  "Goddag.\n" ++ linesText body ++ "Farvel."

/-! ## Definitions -/

/-- A function as it is written down. -/
structure Definition where
  pattern : Pattern
  returnName : String
  body : List Sentence
  location : Location

/-- A function as it is written. -/
def Definition.text (d : Definition) : String :=
  s!"Offentlig funktion {d.pattern.text} tilbagegiver {d.returnName}.\n{blockText d.body}"

/-- A program as it is written down. -/
structure Document where
  definitions : List Definition

/-- A program as it is written, a line end after each function. -/
def Document.text (d : Document) : String :=
  String.join (d.definitions.map fun f => f.text ++ "\n")

end DanishProse

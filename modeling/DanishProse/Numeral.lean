/-
  Danish numerals: numbers spelled out as one word, such as
  `tretusindetohundrede`.

  * `Numeral.Part` is what a piece of a numeral means: a number below a hundred
    that is added, or a scale that multiplies; the fillers `-` and `og` mean
    nothing;
  * `Numeral.parts?` cuts a word into spellings from left to right.  The first
    spelling of the list that fits is taken and never reconsidered, so fillers go
    first, and `tretten` stands before `tre`;
  * `Tally` adds the parts up: units are collected until a scale multiplies them
    together with what smaller scales have left, and a scale that is no larger
    than the last one closes the product before it;
  * `Numeral.decode` is the value of a whole word, if it is a numeral.

  Values are 64-bit and wrap.
-/
import DanishProse.Text.Lowercase

namespace DanishProse.Numeral

/-- A piece of a numeral that counts. -/
inductive Part where
  | units (value : Int64)
  | scale (factor : Int64)
deriving DecidableEq

/-- A spelling, and the part that it stands for unless it is a filler. -/
structure Spelling where
  text : List Char
  part : Option Part

/-- A spelling that means nothing. -/
def Spelling.filler (text : String) : Spelling :=
  ⟨text.toList, none⟩

/-- A spelling of a number below a hundred. -/
def Spelling.units (text : String) (value : Int64) : Spelling :=
  ⟨text.toList, some (.units value)⟩

/-- A spelling of a scale. -/
def Spelling.scale (text : String) (factor : Int64) : Spelling :=
  ⟨text.toList, some (.scale factor)⟩

/-- The spellings, in the order in which they are tried. -/
def spellings : List Spelling := [
  .filler "-", .filler "og",
  .units "ti" 10, .units "elleve" 11, .units "tolv" 12, .units "tretten" 13,
  .units "fjorten" 14, .units "femten" 15, .units "seksten" 16, .units "sytten" 17,
  .units "atten" 18, .units "nitten" 19,
  .units "tyve" 20, .units "tredive" 30, .units "fyrre" 40, .units "halvtreds" 50,
  .units "tres" 60, .units "halvfjers" 70, .units "firs" 80, .units "halvfems" 90,
  .units "nul" 0, .units "en" 1, .units "et" 1, .units "to" 2, .units "tre" 3,
  .units "fire" 4, .units "fem" 5, .units "seks" 6, .units "syv" 7, .units "otte" 8,
  .units "ni" 9,
  .scale "hundrede" 100, .scale "hundred" 100,
  .scale "tusinde" 1000, .scale "tusind" 1000,
  .scale "millioner" 1000000, .scale "million" 1000000,
  .scale "milliarder" 1000000000, .scale "milliard" 1000000000]

/-- The first spelling that a text starts with. -/
def firstSpelling? (cs : List Char) : Option Spelling :=
  spellings.find? fun s => s.text.isPrefixOf cs

/-- The parts of a text that consists of spellings. -/
def parts? : List Char → Option (List Part)
  | [] => some []
  | c :: cs =>
    match firstSpelling? (c :: cs) with
    | some s =>
      match parts? (cs.drop (s.text.length - 1)) with
      | some ps => some (s.part.toList ++ ps)
      | none => none
    | none => none
termination_by cs => cs.length
decreasing_by simp only [List.length_drop, List.length_cons]; omega

/-- A sum in the making. -/
structure Tally where
  /-- Finished products. -/
  closed : Int64 := 0
  /-- The product that a larger scale may still multiply. -/
  product : Int64 := 0
  /-- Units that no scale has multiplied yet. -/
  units : Int64 := 0
  /-- The last scale. -/
  scale : Int64 := 0

/-- A scale without units or a product before it multiplies one. -/
def Tally.add (t : Tally) : Part → Tally
  | .units value => { t with units := t.units + value }
  | .scale factor =>
    let closed := if factor ≤ t.scale then t.closed + t.product else t.closed
    let product := if factor ≤ t.scale then 0 else t.product
    let units := if t.units = 0 ∧ product = 0 then 1 else t.units
    ⟨closed, (product + units) * factor, 0, factor⟩

/-- The sum, once there are no more parts. -/
def Tally.total (t : Tally) : Int64 :=
  t.closed + t.units + t.product

/-- The value of a list of parts. -/
def value (ps : List Part) : Int64 :=
  (ps.foldl Tally.add {}).total

/-- The value of a word that consists of spellings, at least one of them no
    filler. -/
def decode (word : String) : Option Int64 :=
  match parts? (Text.lowercaseWord word) with
  | some (p :: ps) => some (value (p :: ps))
  | _ => none

end DanishProse.Numeral

/-
  What comes of the cases of a corpus, and of numerals.

  The output of a case is what its program prints, and after it the fault that
  stops it, if any; of a program with errors it is the first message.
-/
import DanishProse.Compilation
import DanishProse.Corpus.Case
import DanishProse.Machine.Run

namespace DanishProse.Corpus

/-- What was expected and what came. -/
structure Outcome where
  name : String
  expected : String
  actual : String
deriving DecidableEq

/-- What came is what was expected. -/
def Outcome.passed (o : Outcome) : Bool :=
  o.expected == o.actual

/-! ## Programs -/

/-- The output of a program, blanks at the ends included. -/
def outputOf (source : String) (s : Settings) : String :=
  match compile source with
  | .ok p =>
    let r := p.run s
    match r.fault with
    | some fault => r.output ++ fault.message
    | none => r.output
  | .error reports => (reports.head?.map fun r => r.problem.message).getD ""

/-- What comes of a case; blanks at the ends of the output do not count. -/
def Case.outcome (c : Case) (s : Settings) : Outcome :=
  ⟨c.name, c.expected, String.ofList (Text.trim (outputOf c.source s).toList)⟩

/-- A text occurs in another one. -/
def occursIn (needle text : List Char) : Bool :=
  needle.isPrefixOf text ||
    match text with
    | [] => false
    | _ :: cs => occursIn needle cs

/-- The outcomes of the cases whose names hold a text. -/
def outcomes (c : Corpus) (filter : String) (s : Settings) : List Outcome :=
  (c.cases.filter fun case => occursIn filter.toList case.name.toList).map fun case =>
    case.outcome s

/-! ## Numerals -/

/-- Words, and the numbers that they spell. -/
def numerals : List (String × Option Int64) := [
  ("nitten", some 19),
  ("ethundredefireogtredive", some 134),
  ("tretusindetohundrede", some 3200),
  ("tretusinde-tohundrede", some 3200),
  ("treogtredivehundredeogatten", some 3318),
  ("ettusind", some 1000),
  ("tusind", some 1000),
  ("tohundredeseksogtyvemillioner-tretusinde-syvoghalvtreds", some 226003057),
  ("to-tusind-seks-og-tyve-millioner-fire-og-tredive-tusind-seks-hundrede-fem-og-fyrre",
    some 2026034645),
  ("to-hundrede-seks-og-tyve-tusind", some 226000),
  ("to-tusind-seks-og-tyve-millioner", some 2026000000),
  ("et-tusind-to-hundrede-seks-og-tyve", some 1226),
  ("to-hundrede-millioner", some 200000000),
  ("toogfyrrea", none),
  ("og", none),
  ("-", none)]

/-- A number, or a dash for none. -/
def numeralText : Option Int64 → String
  | some value => toString value.toInt
  | none => "-"

/-- The outcomes of reading the numerals. -/
def numeralOutcomes : List Outcome :=
  numerals.map fun (word, value) =>
    ⟨word, numeralText value, numeralText (Numeral.decode word)⟩

end DanishProse.Corpus

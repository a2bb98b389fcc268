/-
  Files of programs with the output that is expected of them.

  A file is a list of sections with runs of `═` between them.  A section holds a
  name, a program and the expected output, with runs of `─` between them; blanks
  around each of the three do not count.

  * `splitRuns` cuts a text at every run of a character, and gives each piece its
    offset in bytes;
  * `Corpus.ofText` turns every section that is not blank into a case, or into an
    error at its first visible character if it has fewer than three parts.  Line
    ends of two characters are read as one.
-/
import DanishProse.Text.Blank

namespace DanishProse

/-- The bytes that characters take. -/
def byteCount : List Char → Nat
  | [] => 0
  | c :: cs => c.utf8Size + byteCount cs

/-- A piece of a text, and the bytes before it. -/
structure Cut where
  offset : Nat
  text : List Char

/-- The pieces of a text around the runs of a character.  `inRun` says that the
    character before was part of a run. -/
def splitFrom (delimiter : Char) (offset : Nat) (inRun : Bool) : List Char → Cut × List Cut
  | [] => (⟨offset, []⟩, [])
  | c :: cs =>
    let behind := offset + c.utf8Size
    if c = delimiter then
      let (first, others) := splitFrom delimiter behind true cs
      if inRun then (first, others) else (⟨offset, []⟩, first :: others)
    else
      let (first, others) := splitFrom delimiter behind false cs
      (⟨offset, c :: first.text⟩, others)

/-- The pieces of a text around the runs of a character. -/
def splitRuns (delimiter : Char) (text : List Char) : List Cut :=
  let (first, others) := splitFrom delimiter 0 false text
  first :: others

/-- A text with one character at the end of each line. -/
def unifyLineEnds : List Char → List Char
  | [] => []
  | [c] => [c]
  | c :: d :: cs =>
    if c = '\r' ∧ d = '\n' then '\n' :: unifyLineEnds cs
    else c :: unifyLineEnds (d :: cs)

namespace Corpus

/-- Runs of this sign separate sections. -/
def sectionDelimiter : Char := '═'

/-- Runs of this sign separate the parts of a section. -/
def partDelimiter : Char := '─'

/-- A program and what is expected of it. -/
structure Case where
  name : String
  source : String
  expected : String
deriving DecidableEq

/-- A section without a program or without an expected output. -/
structure InvalidSection where
  offset : Nat
deriving DecidableEq

/-- The words for a section that is no case. -/
def InvalidSection.message (e : InvalidSection) (file : String) : String :=
  s!"Invalid test file format.\nFile path: {file}\nByte pos:  {e.offset}"

end Corpus

/-- The cases of a file, and its sections that are none. -/
structure Corpus where
  cases : List Corpus.Case
  errors : List Corpus.InvalidSection

namespace Corpus

/-- The case of a section. -/
def caseOf (s : Cut) : Except InvalidSection Case :=
  let trimmed (part : Cut) := String.ofList (Text.trim part.text)
  match splitRuns partDelimiter s.text with
  | name :: source :: expected :: _ => .ok ⟨trimmed name, trimmed source, trimmed expected⟩
  | _ => .error ⟨s.offset + byteCount (s.text.takeWhile Text.isBlank)⟩

/-- A section in front of those that were looked at already. -/
def add (s : Cut) (c : Corpus) : Corpus :=
  match caseOf s with
  | .ok case => { c with cases := case :: c.cases }
  | .error e => { c with errors := e :: c.errors }

/-- The cases of a text. -/
def ofText (text : String) : Corpus :=
  ((splitRuns sectionDelimiter (unifyLineEnds text.toList)).filter
    fun s => !s.text.all Text.isBlank).foldr add ⟨[], []⟩

end Corpus

end DanishProse

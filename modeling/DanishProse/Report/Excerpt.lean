/-
  A report shown with its line of the source and a caret under the place.

  The line loses its indentation.  A place past the last visible character of the
  text is shown just behind that character.
-/
import DanishProse.Report.Problem
import DanishProse.Text.Blank

namespace DanishProse

/-- A text cut at a count of bytes. -/
def cutAtByte : Nat → List Char → List Char × List Char
  | _, [] => ([], [])
  | n, c :: cs =>
    if n = 0 then ([], c :: cs)
    else
      match cutAtByte (n - c.utf8Size) cs with
      | (before, behind) => (c :: before, behind)

/-- The text around a place, which may have been moved back to where there is
    something to see. -/
structure Excerpt where
  /-- From the start of the line up to the place. -/
  before : List Char
  /-- Everything from the place on. -/
  behind : List Char

namespace Excerpt

/-- The surroundings of a count of bytes.  If only blanks follow, the place moves
    back over the blanks before it. -/
def around (source : List Char) (pos : Nat) : Excerpt :=
  let (before, behind) := cutAtByte pos source
  let visible := if behind.all Text.isBlank then Text.trimRight before else before
  ⟨(visible.reverse.takeWhile (· ≠ '\n')).reverse, before.drop visible.length ++ behind⟩

/-- The whole line, without its end. -/
def line (e : Excerpt) : List Char :=
  (e.before ++ e.behind).takeWhile fun c => c ≠ '\n' && c ≠ '\r'

/-- The line without its indentation. -/
def shown (e : Excerpt) : List Char :=
  Text.trimLeft e.line

/-- The column of the place in the line as it is shown, in characters; the first
    one if the place lies in the indentation. -/
def column (e : Excerpt) : Nat :=
  e.before.length - (e.line.length - e.shown.length)

end Excerpt

/-- A report with its line of the source. -/
def Report.render (r : Report) (source file : String) : String :=
  let e := Excerpt.around source.toList r.location.pos
  let label := s!"{r.location.text file} "
  let pad := String.ofList (List.replicate (label.length + e.column) ' ')
  s!"Compilation error: {r.problem.message}\n\n{label}{String.ofList e.shown}\n{pad}^\n"

end DanishProse

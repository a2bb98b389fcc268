/-
  From a source text to a program.

  `Analysis.ofSource` looks a text through: tokens, document, tree, and the
  reports of all three in this order.  There is a program if and only if there
  are no reports (`compile`).
-/
import DanishProse.Bytecode.Generation
import DanishProse.Prose.Grammar
import DanishProse.Report.Excerpt
import DanishProse.Token.Piece
import DanishProse.Typed.Checking

namespace DanishProse

/-- All that a source text says. -/
structure Analysis where
  document : Document
  tree : Tree
  /-- What was reported before the document was looked up. -/
  readingReports : List Report
  reports : List Report

/-- Looks a text through.  Each stage only begins if there is no report yet. -/
def Analysis.ofSource (source : String) : Analysis :=
  let scanned := Token.ofSource source
  let (document, found) := Document.ofTokens scanned.reports.isEmpty scanned.tokens
  let readingReports := scanned.reports ++ found
  let checked := Tree.ofDocument readingReports.isEmpty document
  ⟨document, checked.value, readingReports, readingReports ++ checked.reports⟩

/-- The program of a source text, or what is wrong with it. -/
def compile (source : String) : Except (List Report) Program :=
  let a := Analysis.ofSource source
  if a.reports.isEmpty then .ok a.tree.program else .error a.reports

section
variable {source : String}

theorem compile_eq_ok_iff {p : Program} : compile source = .ok p ↔
    (Analysis.ofSource source).reports = [] ∧ (Analysis.ofSource source).tree.program = p := by
  cases hreports : (Analysis.ofSource source).reports with
  | nil => simp [compile, hreports]
  | cons r reports => simp [compile, hreports]

theorem compile_eq_error_iff {reports : List Report} : compile source = .error reports ↔
    reports ≠ [] ∧ (Analysis.ofSource source).reports = reports := by
  cases hreports : (Analysis.ofSource source).reports with
  | nil => simp +contextual [compile, hreports, eq_comm]
  | cons r others => simp +contextual [compile, hreports, eq_comm]

end

/-- All reports on a text, a line each. -/
def reportsText (reports : List Report) (file : String) : String :=
  "Compile error: \n" ++ String.join (reports.map fun r => r.line file ++ "\n")

end DanishProse

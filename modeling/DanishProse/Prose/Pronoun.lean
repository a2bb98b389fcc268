/-
  The pronouns `det` and `den` stand for the clauses before them.

  `resolveClauses` goes through a clause list once, from left to right.  The
  clauses that it has finished are the antecedent of the next pronoun: that
  pronoun becomes a bracketed list of all of them, and its clause is then the
  first of the list.  A pronoun with nothing before it stays a word, and so does
  a second pronoun in one clause, since the first has taken the antecedent.
  Bracketed lists that were there before are resolved on their own.
-/
import DanishProse.Prose.Clause
import DanishProse.Text.Lowercase

namespace DanishProse

/-- The two pronouns. -/
def isPronoun (word : String) : Bool :=
  Text.sameWord word "det" || Text.sameWord word "den"

/-- Something with its pronouns resolved, and what is left of the antecedent. -/
structure Resolved (α : Type) where
  value : α
  antecedent : List Clause

mutual

/-- A list, some clauses of which are finished. -/
def resolveFrom (done : List Clause) : List Clause → List Clause
  | [] => done
  | c :: cs => resolveFrom (c.resolveAfter done) cs
termination_by structural cs => cs

/-- The finished clauses with one more. -/
def Clause.resolveAfter (done : List Clause) : Clause → List Clause
  | .mk l ps =>
    let r := resolveParts done ps
    r.antecedent ++ [.mk l r.value]
termination_by structural c => c

/-- The parts of one clause. -/
def resolveParts (antecedent : List Clause) : List Part → Resolved (List Part)
  | [] => ⟨[], antecedent⟩
  | p :: ps =>
    let q := p.resolve antecedent
    let r := resolveParts q.antecedent ps
    ⟨q.value :: r.value, r.antecedent⟩
termination_by structural ps => ps

/-- One part. -/
def Part.resolve (antecedent : List Clause) : Part → Resolved Part
  | .word w =>
    if isPronoun w && !antecedent.isEmpty then ⟨.list antecedent, []⟩
    else ⟨.word w, antecedent⟩
  | .literal v => ⟨.literal v, antecedent⟩
  | .list cs => ⟨.list (resolveFrom [] cs), antecedent⟩
termination_by structural p => p

end

/-- A clause list with its pronouns resolved. -/
def resolveClauses (cs : List Clause) : List Clause :=
  resolveFrom [] cs

end DanishProse

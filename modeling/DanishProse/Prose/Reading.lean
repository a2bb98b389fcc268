/-
  Reading from a list of tokens.

  A `Reader` takes tokens from the front of a list and gives a value, the tokens
  that it leaves and reports; what it leaves is no longer than what it was given
  (`Reading.length_le`).  A reader never gives up: where it wants another token
  than the next one it says so, takes the next one all the same and goes on.
  Past the last token it sees the end of input, at the place of the last token.
-/
import DanishProse.Report.Problem
import DanishProse.Token.Basic

namespace DanishProse

/-- What was read from the tokens `ts`. -/
structure Reading (ts : List Token) (α : Type) where
  value : α
  rest : List Token
  reports : List Report
  length_le : rest.length ≤ ts.length

/-- A way to read; `ending` is the place of the end of input. -/
abbrev Reader (α : Type) :=
  (ending : Location) → (ts : List Token) → Reading ts α

/-- Readings one after the other leave no more than the first one. -/
theorem Reading.length_le_of_le {ts : List Token} {α : Type} (r : Reading ts α) {n : Nat}
    (h : ts.length ≤ n) : r.rest.length ≤ n :=
  Nat.le_trans r.length_le h

theorem length_tail_le_of_le {ts : List Token} {n : Nat} (h : ts.length ≤ n) :
    ts.tail.length ≤ n :=
  Nat.le_trans (by simp) h

namespace Reader

/-- Reads nothing. -/
def pure {α : Type} (a : α) : Reader α :=
  fun _ ts => ⟨a, ts, [], Nat.le_refl _⟩

/-- Reads on from where the first reader stopped. -/
def andThen {α β : Type} (r : Reader α) (f : α → Reader β) : Reader β :=
  fun ending ts =>
    let a := r ending ts
    let b := f a.value ending a.rest
    ⟨b.value, b.rest, a.reports ++ b.reports, Nat.le_trans b.length_le a.length_le⟩

instance : Monad Reader where
  pure := pure
  bind := andThen

end Reader

/-- The next token. -/
def nextToken (ending : Location) (ts : List Token) : Token :=
  ts.headD ⟨.endOfInput, "", ending⟩

/-- The next token reads as a keyword. -/
def nextReads (keyword : String) : List Token → Bool
  | [] => false
  | t :: _ => t.reads keyword

/-- The tokens without a keyword at the front, if it is there. -/
def dropKeyword (keyword : String) (ts : List Token) : List Token :=
  if nextReads keyword ts then ts.tail else ts

theorem length_dropKeyword_le (keyword : String) (ts : List Token) :
    (dropKeyword keyword ts).length ≤ ts.length := by
  unfold dropKeyword
  split <;> simp

/-- Takes a token that should be of a kind. -/
def expectKind (kind : TokenKind) : Reader Token :=
  fun ending ts =>
    let t := nextToken ending ts
    ⟨t, ts.tail,
      if t.kind = kind then [] else [⟨.unexpectedToken kind.name t.kind.name, t.location⟩],
      by simp⟩

/-- Takes a token that should read as a keyword. -/
def expectKeyword (keyword : String) : Reader Token :=
  fun ending ts =>
    let t := nextToken ending ts
    let given := if t.kind = .word then t.text else t.kind.name
    ⟨t, ts.tail,
      if t.reads keyword then [] else [⟨.unexpectedToken keyword given, t.location⟩],
      by simp⟩

/-- Takes a keyword if it is there. -/
def optionalKeyword (keyword : String) : Reader Unit :=
  fun _ ts => ⟨(), dropKeyword keyword ts, [], length_dropKeyword_le keyword ts⟩

/-- The place of the next token. -/
def nextLocation : Reader Location :=
  fun ending ts => ⟨(nextToken ending ts).location, ts, [], Nat.le_refl _⟩

end DanishProse

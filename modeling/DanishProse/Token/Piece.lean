/-
  The pieces of a source text, in order and without gaps.

  * A `Piece` is a run of white space, a token, or something that cannot stand
    in a program, with the problem that it is;
  * `scan` cuts a text into pieces.  What kind of piece begins with a character
    is decided by that character, and `reach` says how far it goes on;
  * `text_scan`: the pieces put together are the text;
  * `Token.ofSource` are the tokens without comments, and the reports.

  Letters outside ASCII all belong to words, so a word may hold any of them.
-/
import DanishProse.Numeral
import DanishProse.Report.Problem
import DanishProse.Text.Blank
import DanishProse.Token.Basic

namespace DanishProse

/-! ## Characters -/

/-- The letters of ASCII, capital and small. -/
def isAsciiLetter (c : Char) : Bool :=
  ('a' ≤ c && c ≤ 'z') || ('A' ≤ c && c ≤ 'Z')

/-- The ten digits of ASCII. -/
def isDigit (c : Char) : Bool :=
  '0' ≤ c && c ≤ '9'

/-- The number that a digit stands for. -/
def digitValue (c : Char) : Nat :=
  c.toNat - '0'.toNat

/-- The signs of ASCII: neither letters, digits, controls nor the space. -/
def isSign (c : Char) : Bool :=
  ('!' ≤ c && c ≤ '/') || (':' ≤ c && c ≤ '@') || ('[' ≤ c && c ≤ '\x60') ||
    ('\x7b' ≤ c && c ≤ '~')

/-- A word starts with a letter or an underscore. -/
def isWordStart (c : Char) : Bool :=
  isAsciiLetter c || c == '_' || 128 ≤ c.toNat

/-- A word goes on with digits and hyphens too. -/
def isWordRest (c : Char) : Bool :=
  isWordStart c || isDigit c || c == '-'

/-! ## Words and numbers -/

/-- A comment starts with this word and ends with its line. -/
def commentWord : String := "bemærk"

/-- What a word is on its own. -/
def wordKind (text : String) : TokenKind :=
  if Text.sameWord text commentWord then .comment
  else if Text.sameWord text "falsk" || Text.sameWord text "falskt" then .literal (.boolean false)
  else if Text.sameWord text "sand" || Text.sameWord text "sandt" then .literal (.boolean true)
  else
    match Numeral.decode text with
    | some value => .literal (.integer value)
    | none => .word

/-- How far a number goes on: over digits, and over commas with a digit behind. -/
def numberReach : List Char → Nat
  | [] => 0
  | [c] => if isDigit c then 1 else 0
  | c :: d :: cs =>
    if isDigit c then numberReach (d :: cs) + 1
    else if c == ',' && isDigit d then numberReach (d :: cs) + 1
    else 0

/-- The value of a run of digits, wrapping at 64 bits. -/
def wrappedValue (digits : List Char) : Int64 :=
  digits.foldl (fun value d => value * 10 + Int64.ofNat (digitValue d)) 0

/-- The value of a run of digits. -/
def naturalValue (digits : List Char) : Nat :=
  digits.foldl (fun value d => value * 10 + digitValue d) 0

/-- The literal that a number is, if it has at most one comma. -/
def numberLiteral? (text : List Char) : Option Literal :=
  let whole := text.takeWhile (· ≠ ',')
  match text.dropWhile (· ≠ ',') with
  | [] => some (.integer (wrappedValue whole))
  | _ :: fraction =>
    if fraction.contains ',' then none
    else some (.float (Binary64.ofDecimal (naturalValue (whole ++ fraction)) fraction.length))

/-! ## Pieces -/

/-- What a piece of text counts as. -/
inductive Role where
  | blank
  | token (kind : TokenKind)
  | rejected (problem : Problem)
deriving DecidableEq

/-- A piece of a source text. -/
structure Piece where
  role : Role
  text : List Char
  location : Location
deriving DecidableEq

/-- How many more characters belong to the piece that begins with `c`. -/
def reach (c : Char) (cs : List Char) : Nat :=
  if Text.isAsciiBlank c then (cs.takeWhile Text.isAsciiBlank).length
  else if isWordStart c then
    let word := cs.takeWhile isWordRest
    if Text.sameWord (String.ofList (c :: word)) commentWord then
      word.length + ((cs.drop word.length).takeWhile (· ≠ '\n')).length
    else word.length
  else if isDigit c then numberReach cs
  else 0

/-- What a piece is that begins with `c` and goes on with `cs`. -/
def role (c : Char) (cs : List Char) : Role :=
  if Text.isAsciiBlank c then .blank
  else if isWordStart c then .token (wordKind (String.ofList (c :: cs.takeWhile isWordRest)))
  else if isSign c then
    match c with
    | '.' => .token .dot
    | ',' => .token .comma
    | '(' => .token .parenOpen
    | ')' => .token .parenClose
    | _ => .rejected .invalidOperator
  else if isDigit c then
    match numberLiteral? (c :: cs) with
    | some value => .token (.literal value)
    | none => .rejected .invalidFloat
  else .rejected .unexpectedCharacter

/-- The pieces of a text that begins at a place. -/
def scan (l : Location) : List Char → List Piece
  | [] => []
  | c :: cs =>
    let n := reach c cs
    let text := c :: cs.take n
    ⟨role c (cs.take n), text, l⟩ :: scan (l.after text) (cs.drop n)
termination_by cs => cs.length
decreasing_by simp only [List.length_drop, List.length_cons]; omega

/-- Nothing of the text is lost, and nothing is added. -/
theorem text_scan (l : Location) (cs : List Char) : (scan l cs).flatMap Piece.text = cs := by
  fun_induction scan l cs with
  | case1 => rfl
  | case2 l c cs n text ih =>
    rw [List.flatMap_cons, ih, List.cons_append, List.take_append_drop]

/-! ## Tokens and reports -/

/-- The token that a piece is. -/
def Piece.token? (p : Piece) : Option Token :=
  match p.role with
  | .token kind => some ⟨kind, String.ofList p.text, p.location⟩
  | _ => none

/-- The report on a piece that cannot stand in a program. -/
def Piece.report? (p : Piece) : Option Report :=
  match p.role with
  | .rejected problem => some ⟨problem, p.location⟩
  | _ => none

/-- A list of tokens, and what was found wrong on the way. -/
structure Scanned where
  tokens : List Token
  reports : List Report

/-- All tokens of a text, comments included, with the end of the text as the
    last one. -/
def Token.allOfSource (source : String) : Scanned :=
  let cs := source.toList
  let pieces := scan .start cs
  ⟨pieces.filterMap Piece.token? ++ [⟨.endOfInput, "", Location.start.after cs⟩],
    pieces.filterMap Piece.report?⟩

/-- The tokens of a text without comments. -/
def Token.ofSource (source : String) : Scanned :=
  let all := Token.allOfSource source
  { all with tokens := all.tokens.filter (·.kind ≠ .comment) }

end DanishProse

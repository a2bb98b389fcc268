/-
  Tokens: words, literals, points, commas and brackets, with comments among them
  and one token for the end of the text.
-/
import DanishProse.Prose.Literal
import DanishProse.Report.Location
import DanishProse.Text.Lowercase

namespace DanishProse

/-- What a token is.  A spelled number or truth value is a literal, not a word. -/
inductive TokenKind where
  | endOfInput
  | dot
  | comma
  | parenOpen
  | parenClose
  | literal (value : Literal)
  | word
  | comment
deriving DecidableEq

/-- The name of a kind in messages. -/
def TokenKind.name : TokenKind → String
  | endOfInput => "end of input"
  | dot => "'.'"
  | comma => "','"
  | parenOpen => "'('"
  | parenClose => "')'"
  | literal _ => "literal"
  | word => "word"
  | comment => "comment"

/-- A token with its text as it stands in the source. -/
structure Token where
  kind : TokenKind
  text : String
  location : Location
deriving DecidableEq

/-- Keywords are told by their text, whatever the kind of the token: `en` is also
    the number one. -/
def Token.reads (t : Token) (keyword : String) : Bool :=
  Text.sameWord t.text keyword

end DanishProse

/-
  White space, and texts without it at the ends.

  * `isBlank` holds of the twenty-five characters with the Unicode property
    `White_Space`; `isAsciiBlank` of the five of them that separate tokens;
  * `trim`, `trimLeft` and `trimRight` drop blanks from the ends of a text;
  * `words` are the maximal runs of characters that are not blank.
-/

namespace DanishProse.Text

/-- The property `White_Space`. -/
def isBlank (c : Char) : Bool :=
  let code := c.toNat
  (9 ≤ code && code ≤ 13) || code == 0x20 || code == 0x85 || code == 0xA0 || code == 0x1680 ||
    (0x2000 ≤ code && code ≤ 0x200A) || code == 0x2028 || code == 0x2029 || code == 0x202F ||
    code == 0x205F || code == 0x3000

/-- Space, tab, line feed, form feed and carriage return. -/
def isAsciiBlank (c : Char) : Bool :=
  c == ' ' || c == '\t' || c == '\n' || c == '\x0c' || c == '\r'

/-- A text without the blanks that it starts with. -/
def trimLeft (cs : List Char) : List Char :=
  cs.dropWhile isBlank

/-- A text without the blanks that it ends with. -/
def trimRight (cs : List Char) : List Char :=
  (cs.reverse.dropWhile isBlank).reverse

/-- A text without the blanks at both ends. -/
def trim (cs : List Char) : List Char :=
  trimRight (trimLeft cs)

/-- The word that a text starts with, and the words after it.  The word is
    empty if the text starts with a blank or is empty. -/
def splitWords : List Char → List Char × List (List Char)
  | [] => ([], [])
  | c :: cs =>
    match splitWords cs with
    | (word, others) =>
      if isBlank c then ([], if word.isEmpty then others else word :: others)
      else (c :: word, others)

/-- The words of a text. -/
def words (cs : List Char) : List (List Char) :=
  match splitWords cs with
  | (word, others) => if word.isEmpty then others else word :: others

end DanishProse.Text

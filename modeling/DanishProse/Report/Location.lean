/-
  Places in a source text.

  A place is a count of bytes in the UTF-8 form of the text, with the count of
  lines before it and of bytes since the start of its line.  `after` moves a
  place past a piece of text; moving past two pieces in turn is moving past
  both at once.
-/

namespace DanishProse

/-- A place, everything counted from zero. -/
structure Location where
  pos : Nat
  row : Nat
  col : Nat
deriving DecidableEq, Inhabited

namespace Location

/-- The beginning of a text. -/
def start : Location := ⟨0, 0, 0⟩

/-- The place after one more character. -/
def next (l : Location) (c : Char) : Location :=
  if c = '\n' then ⟨l.pos + 1, l.row + 1, 0⟩
  else ⟨l.pos + c.utf8Size, l.row, l.col + c.utf8Size⟩

/-- The place after a piece of text. -/
def after (l : Location) (cs : List Char) : Location :=
  cs.foldl next l

@[simp] theorem after_nil (l : Location) : l.after [] = l := rfl

@[simp] theorem after_cons (l : Location) (c : Char) (cs : List Char) :
    l.after (c :: cs) = (l.next c).after cs := rfl

theorem after_append (l : Location) (cs ds : List Char) :
    l.after (cs ++ ds) = (l.after cs).after ds := by
  simp [after]

/-- A place in a file as people count: lines and columns from one. -/
def text (l : Location) (file : String) : String :=
  s!"{file}({l.row + 1}:{l.col + 1})"

end Location

end DanishProse

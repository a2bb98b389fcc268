/-
  The stack of cells.

  It holds at most `Stack.capacity` cells; `cells` lists them from the top, and
  `push_eq_ok_iff` and `pop_eq_ok_iff` say what the operations do to the list.
-/
import DanishProse.Machine.Cell
import DanishProse.Machine.Fault

namespace DanishProse

/-- Cells, the top one first, with their number. -/
structure Stack where
  cells : List Cell
  depth : Nat
  depth_eq : depth = cells.length

namespace Stack

/-- The most cells that a stack may hold. -/
def capacity : Nat := 0x100000

/-- The stack without cells. -/
def empty : Stack := ⟨[], 0, rfl⟩

@[ext] theorem ext {s t : Stack} (h : s.cells = t.cells) : s = t := by
  obtain ⟨cs, n, hn⟩ := s
  obtain ⟨ds, m, hm⟩ := t
  subst h hn hm
  rfl

/-- Puts a cell on top, if there is room for it. -/
def push (s : Stack) (c : Cell) : Except Fault Stack :=
  match s with
  | ⟨cells, depth, h⟩ =>
    if depth < capacity then .ok ⟨c :: cells, depth + 1, by simp [h]⟩
    else .error .stackOverflow

/-- The top cell, and the stack below it. -/
def pop (s : Stack) : Except Fault (Cell × Stack) :=
  match s with
  | ⟨[], _, _⟩ => .error .stackUnderflow
  | ⟨c :: cells, depth, h⟩ => .ok (c, ⟨cells, depth - 1, by simp [h]⟩)

/-- The top cell. -/
def peek (s : Stack) : Except Fault Cell :=
  match s.cells with
  | [] => .error .stackUnderflow
  | c :: _ => .ok c

/-- A cell goes on top of a stack that is not full. -/
theorem push_eq_ok_iff {s t : Stack} {c : Cell} :
    s.push c = .ok t ↔ s.depth < capacity ∧ t.cells = c :: s.cells := by
  obtain ⟨cells, depth, h⟩ := s
  by_cases room : depth < capacity
  · simp only [push, room, if_true, true_and, Except.ok.injEq]
    exact ⟨fun e => e ▸ rfl, fun e => ext e.symm⟩
  · simp [push, room]

/-- A cell comes off a stack if it is on top. -/
theorem pop_eq_ok_iff {s t : Stack} {c : Cell} :
    s.pop = .ok (c, t) ↔ s.cells = c :: t.cells := by
  obtain ⟨cells, depth, h⟩ := s
  cases cells with
  | nil => exact ⟨nofun, nofun⟩
  | cons d ds =>
    constructor
    · rintro ⟨⟩
      rfl
    · rintro ⟨⟩
      exact congrArg (fun rest => Except.ok (c, rest)) (ext rfl)

/-- The bytes that the cells take. -/
def size (s : Stack) : Nat :=
  8 * s.depth

/-- The cells on one line as signed numbers, the top one last. -/
def text (s : Stack) : String :=
  "          " ++ String.join (s.cells.reverse.map fun c =>
    s!"[ {Text.alignRight 8 (toString c.toInt64.toInt)} ]")

end Stack

end DanishProse

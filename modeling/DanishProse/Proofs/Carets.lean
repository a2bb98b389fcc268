/-
  The line that a report is shown with, and the caret below it.

  * `lineAround before behind` is the line of a text around a place, from newline to
    newline, and `withoutReturn` takes away the carriage return that ends it;
  * `Report.At`: a report is about a character of a text, with what stands before and
    behind it;
  * `Report.withLine` writes a report with a line, and a caret below one column of it;
  * `caret_below_iff`: the line is shown as it should be, with the caret right below the
    character, just if the line has no other carriage return than the one that ends it.
-/
import Mathlib.Data.List.DropRight
import Mathlib.Data.List.TakeWhile
import Mathlib.Tactic.Common
import DanishProse.Compilation

namespace DanishProse

/-! ## Lines -/

/-- The line of a text around a place, without the newlines. -/
def lineAround (before behind : List Char) : List Char :=
  before.rtakeWhile (· ≠ '\n') ++ behind.takeWhile (· ≠ '\n')

/-- A line without the carriage return that ends it. -/
def withoutReturn (line : List Char) : List Char :=
  if line.getLast? = some '\r' then line.dropLast else line

/-- A report is about a character of a source. -/
structure Report.At (r : Report) (source : String) (before : List Char) (c : Char) (behind : List Char) :
    Prop where
  text : source.toList = before ++ c :: behind
  place : r.location.pos = (String.ofList before).utf8ByteSize

/-- A report with a line below it, and a caret below a column of the line. -/
def Report.withLine (r : Report) (file : String) (line : List Char) (column : Nat) : String :=
  let label := s!"{r.location.text file} "
  let pad := String.ofList (List.replicate (label.length + column) ' ')
  s!"Compilation error: {r.problem.message}\n\n{label}{String.ofList line}\n{pad}^\n"

theorem Report.render_eq (r : Report) (source file : String) :
    let e := Excerpt.around source.toList r.location.pos
    r.render source file = r.withLine file e.shown e.column := rfl

section
variable {before behind : List Char} {c : Char}

theorem withoutReturn_of_last {line : List Char} (h : line.getLast? = some '\r') :
    line = withoutReturn line ++ ['\r'] := by
  obtain ⟨cs, rfl⟩ := List.getLast?_eq_some_iff.1 h
  rw [withoutReturn, if_pos h, List.dropLast_concat]

/-- The carriage return that ends a line is the last one to cut it at. -/
theorem takeWhile_withoutReturn (line : List Char) :
    line.takeWhile (· ≠ '\r') = (withoutReturn line).takeWhile (· ≠ '\r') := by
  by_cases hlast : line.getLast? = some '\r'
  · nth_rewrite 1 [withoutReturn_of_last hlast]
    rw [List.takeWhile_append]
    split_ifs with hall
    · rw [(List.takeWhile_sublist _).eq_of_length hall]
      simp
    · rfl
  · rw [withoutReturn, if_neg hlast]

theorem takeWhile_append_of_not_mem {a : Char} {cs : List Char} (h : a ∉ cs) (ds : List Char) :
    (cs ++ ds).takeWhile (· ≠ a) = cs ++ ds.takeWhile (· ≠ a) := by
  refine List.takeWhile_append_of_pos fun d hd => decide_eq_true ?_
  rintro rfl
  exact h hd

theorem ne_newline_of_mem_rtakeWhile : ∀ d ∈ before.rtakeWhile (· ≠ '\n'), decide (d ≠ '\n') = true := by
  intro d hd
  simpa using List.mem_rtakeWhile_imp hd

/-- The place and what is before it belong to its line. -/
theorem exists_withoutReturn (before behind : List Char) (hc : Text.isBlank c = false) : ∃ after,
    withoutReturn (lineAround before (c :: behind)) = before.rtakeWhile (· ≠ '\n') ++ c :: after := by
  have hnewline : c ≠ '\n' := by
    rintro rfl
    exact absurd hc (by decide)
  have hreturn : c ≠ '\r' := by
    rintro rfl
    exact absurd hc (by decide)
  have hline : lineAround before (c :: behind) =
      before.rtakeWhile (· ≠ '\n') ++ c :: behind.takeWhile (· ≠ '\n') := by
    simp [lineAround, hnewline]
  rw [hline, withoutReturn]
  split_ifs with hlast
  · rcases List.eq_nil_or_concat (behind.takeWhile (· ≠ '\n')) with hnil | ⟨ds, d, hconcat⟩
    · rw [hnil, List.getLast?_concat] at hlast
      exact absurd (Option.some.inj hlast) hreturn
    · refine ⟨ds, ?_⟩
      rw [hconcat, List.concat_eq_append, ← List.cons_append, ← List.append_assoc, List.dropLast_concat]
  · exact ⟨_, rfl⟩

/-! ## Excerpts -/

theorem cutAtByte_append (before behind : List Char) :
    cutAtByte (String.ofList before).utf8ByteSize (before ++ behind) = (before, behind) := by
  induction before with
  | nil =>
    cases behind with
    | nil => rfl
    | cons c cs => simp [cutAtByte]
  | cons c cs ih =>
    have hsize : (String.ofList (c :: cs)).utf8ByteSize = c.utf8Size + (String.ofList cs).utf8ByteSize := by
      rw [← List.singleton_append, String.ofList_append, String.utf8ByteSize_append,
        ← String.singleton_eq_ofList, String.utf8ByteSize_singleton]
    have hpos := c.utf8Size_pos
    rw [List.cons_append, cutAtByte, if_neg (by omega), hsize, Nat.add_sub_cancel_left, ih]

section
variable {r : Report} {source : String} (h : r.At source before c behind) (hc : Text.isBlank c = false)
include h hc

/-- A place that can be seen is not moved. -/
theorem Report.At.around_eq : Excerpt.around source.toList r.location.pos =
    ⟨before.rtakeWhile (· ≠ '\n'), c :: behind⟩ := by
  rw [h.text, h.place, Excerpt.around, cutAtByte_append]
  simp [hc, List.rtakeWhile]

/-- The line ends at a newline or at a carriage return. -/
theorem Report.At.line_eq : (Excerpt.around source.toList r.location.pos).line =
    (lineAround before (c :: behind)).takeWhile (· ≠ '\r') := by
  rw [h.around_eq hc, Excerpt.line, lineAround,
    ← List.takeWhile_append_of_pos ne_newline_of_mem_rtakeWhile, List.takeWhile_takeWhile]
  congr 1
  funext d
  simp [and_comm]

theorem Report.At.line_eq_withoutReturn (hreturn : '\r' ∉ withoutReturn (lineAround before (c :: behind))) :
    (Excerpt.around source.toList r.location.pos).line = withoutReturn (lineAround before (c :: behind)) := by
  have hwhole := takeWhile_append_of_not_mem hreturn []
  rw [List.append_nil, List.takeWhile_nil, List.append_nil] at hwhole
  rw [h.line_eq hc, takeWhile_withoutReturn, hwhole]

/-- Without a carriage return before the end of the line, the column is that of the place in what is
    shown. -/
theorem Report.At.column_eq (hreturn : '\r' ∉ withoutReturn (lineAround before (c :: behind))) :
    ∃ indent left right,
      withoutReturn (lineAround before (c :: behind)) = indent ++ (left ++ c :: right) ∧
        before.rtakeWhile (· ≠ '\n') = indent ++ left ∧
          Text.trimLeft (withoutReturn (lineAround before (c :: behind))) = left ++ c :: right ∧
            (Excerpt.around source.toList r.location.pos).column = left.length := by
  have hline := h.line_eq_withoutReturn hc hreturn
  obtain ⟨after, hafter⟩ := exists_withoutReturn before behind hc
  have hfront : (Excerpt.around source.toList r.location.pos).before = before.rtakeWhile (· ≠ '\n') := by
    rw [h.around_eq hc]
  generalize before.rtakeWhile (· ≠ '\n') = front at hafter hfront ⊢
  have hsplit := List.takeWhile_append_dropWhile (p := Text.isBlank) (l := front)
  have hshown : Text.trimLeft (withoutReturn (lineAround before (c :: behind))) =
      front.dropWhile Text.isBlank ++ c :: after := by
    rw [hafter, Text.trimLeft, List.dropWhile_append]
    split_ifs with hblank
    · rw [List.isEmpty_iff.1 hblank, List.dropWhile_cons_of_neg (by simp [hc]), List.nil_append]
    · rfl
  refine ⟨front.takeWhile Text.isBlank, front.dropWhile Text.isBlank, after, ?_, hsplit.symm, hshown, ?_⟩
  · rw [← List.append_assoc, hsplit, hafter]
  · have hlength := congrArg List.length hsplit
    rw [Excerpt.column, Excerpt.shown, hline, hshown, hfront, hafter]
    simp only [List.length_append, List.length_cons] at hlength ⊢
    omega

/-- With a carriage return before its end, something else is shown. -/
theorem Report.At.shown_ne (hreturn : '\r' ∈ withoutReturn (lineAround before (c :: behind))) :
    (Excerpt.around source.toList r.location.pos).shown ≠
      Text.trimLeft (withoutReturn (lineAround before (c :: behind))) := by
  intro hsame
  obtain ⟨front, rest, hsplit, hfirst⟩ := List.eq_append_cons_of_mem hreturn
  have hline : (Excerpt.around source.toList r.location.pos).line = front := by
    rw [h.line_eq hc, takeWhile_withoutReturn, hsplit, takeWhile_append_of_not_mem hfirst]
    simp
  rw [Excerpt.shown, hline, hsplit, Text.trimLeft, Text.trimLeft, List.dropWhile_append] at hsame
  split_ifs at hsame with hblank
  · -- what is shown is empty, but the character is in the line
    obtain ⟨after, hafter⟩ := exists_withoutReturn before behind hc
    have hfront := List.isEmpty_iff.1 hblank
    rw [hfront] at hsame
    have hall : ∀ d ∈ withoutReturn (lineAround before (c :: behind)), Text.isBlank d = true := by
      rw [hsplit]
      exact List.forall_mem_append.2
        ⟨List.dropWhile_eq_nil_iff.1 hfront, List.dropWhile_eq_nil_iff.1 hsame.symm⟩
    have hcblank := hall c (by simp [hafter])
    rw [hc] at hcblank
    cases hcblank
  · have hlength := congrArg List.length hsame
    simp at hlength

end

/-! ## Renderings -/

/-- What a report is shown with can be read off its rendering. -/
theorem Report.withLine_inj {r : Report} {file : String} {line line' : List Char} {column column' : Nat}
    (hline : '\n' ∉ line) (hline' : '\n' ∉ line') (h : r.withLine file line column = r.withLine file line' column') :
    line = line' := by
  unfold withLine at h
  dsimp only at h
  generalize s!"{r.location.text file} " = label at h
  generalize String.ofList (List.replicate (label.length + column) ' ') = pad at h
  generalize String.ofList (List.replicate (label.length + column') ' ') = pad' at h
  have hlist := congrArg String.toList h
  simp only [String.toList_append, String.toList_ofList, toString, List.append_assoc,
    List.append_cancel_left_eq] at hlist
  -- both lines end where the next newline is
  have hcut := congrArg (List.takeWhile (· ≠ '\n')) hlist
  rw [takeWhile_append_of_not_mem hline, takeWhile_append_of_not_mem hline'] at hcut
  simpa using hcut

theorem newline_not_mem_trimLeft : '\n' ∉ Text.trimLeft (withoutReturn (lineAround before behind)) := by
  intro hmem
  have hline : '\n' ∈ lineAround before behind := by
    have hwithout : '\n' ∈ withoutReturn (lineAround before behind) := List.dropWhile_subset _ hmem
    unfold withoutReturn at hwithout
    split_ifs at hwithout
    · exact List.dropLast_subset _ hwithout
    · exact hwithout
  rcases List.mem_append.1 hline with hfront | hrest
  · exact absurd (ne_newline_of_mem_rtakeWhile _ hfront) (by simp)
  · exact absurd (List.mem_takeWhile_imp hrest) (by simp)

theorem Excerpt.newline_not_mem_shown (e : Excerpt) : '\n' ∉ e.shown := by
  intro hmem
  have hline : '\n' ∈ e.line := List.dropWhile_subset _ hmem
  exact absurd (List.mem_takeWhile_imp hline) (by simp)

/-- **The caret is right below the place, just if the line has no stray carriage return.**  A report about
    a character that can be seen is shown with the line that the character is in, without its
    indentation and the carriage return that ends it, and with the caret right below the character,
    if and only if there is no other carriage return in this line. -/
theorem caret_below_iff (file : String) {r : Report} {source : String} {before behind : List Char} {c : Char}
    (h : r.At source before c behind) (hc : Text.isBlank c = false) :
    let line := withoutReturn (lineAround before (c :: behind))
    '\r' ∉ line ↔ ∃ indent left right,
      line = indent ++ (left ++ c :: right) ∧ before.rtakeWhile (· ≠ '\n') = indent ++ left ∧
        Text.trimLeft line = left ++ c :: right ∧
          r.render source file = r.withLine file (left ++ c :: right) left.length := by
  intro line
  rw [r.render_eq]
  constructor
  · intro hreturn
    obtain ⟨indent, left, right, hline, hfront, hshown, hcolumn⟩ := h.column_eq hc hreturn
    refine ⟨indent, left, right, hline, hfront, hshown, ?_⟩
    rw [hcolumn, ← hshown, Excerpt.shown, h.line_eq_withoutReturn hc hreturn]
  · rintro ⟨indent, left, right, -, -, hshown, hrender⟩ hreturn
    rw [← hshown] at hrender
    exact h.shown_ne hc hreturn
      (Report.withLine_inj (Excerpt.newline_not_mem_shown _) newline_not_mem_trimLeft hrender)

end

/-- A text whose third line is indented by two kinds of blanks and ends in a carriage return, cut at a
    sign that is no operator. -/
def indentedFront : List Char := "Bemærk: æ.\r\nGoddag.\r\n\u00a0\t Læg ø ".toList

def indentedRear : List Char := " å.\r\nFarvel.\r\n".toList

theorem caret_below_plus :
    let source := String.ofList (indentedFront ++ '+' :: indentedRear)
    let r : Report := ⟨.invalidOperator, ⟨35, 2, 12⟩⟩
    let line := withoutReturn (lineAround indentedFront ('+' :: indentedRear))
    r ∈ (Analysis.ofSource source).reports ∧ r.At source indentedFront '+' indentedRear ∧
      Text.isBlank '+' = false ∧ '\r' ∉ line ∧
        ∃ indent left right,
          line = indent ++ (left ++ '+' :: right) ∧
            indentedFront.rtakeWhile (· ≠ '\n') = indent ++ left ∧
              Text.trimLeft line = left ++ '+' :: right ∧
                r.render source "test.dk" = r.withLine "test.dk" (left ++ '+' :: right) left.length := by
  intro source r line
  have hat : r.At source indentedFront '+' indentedRear := ⟨String.toList_ofList, by decide +kernel⟩
  have hreturn : '\r' ∉ line := by decide +kernel
  exact ⟨by decide +kernel, hat, by decide, hreturn,
    (caret_below_iff "test.dk" hat (by decide)).1 hreturn⟩

/-- Behind a carriage return in its line, an operator is reported without being shown, and nothing is
    above the caret. -/
theorem caret_behind_return :
    let source := "a\r+"
    let r : Report := ⟨.invalidOperator, ⟨2, 0, 2⟩⟩
    compile source = .error [r] ∧ r.At source ['a', '\r'] '+' [] ∧ Text.isBlank '+' = false ∧
      withoutReturn (lineAround ['a', '\r'] ['+']) = ['a', '\r', '+'] ∧
        r.render source "test.dk" = r.withLine "test.dk" ['a'] 2 ∧
          r.render source "test.dk" ≠ r.withLine "test.dk" ['a', '\r', '+'] 2 := by
  intro source r
  have hreports : (Analysis.ofSource source).reports = [r] := by decide +kernel
  have hcompile : compile source = .error [r] := compile_eq_error_iff.2 ⟨List.cons_ne_nil _ _, hreports⟩
  exact ⟨hcompile, ⟨by decide +kernel, by decide +kernel⟩, by decide, by decide +kernel, by decide +kernel,
    by decide +kernel⟩

end DanishProse

/-
  Renderings of reports from slices of the source.

  * `cut?` cuts a text at a count of bytes, if this is between two characters, and
    `slice?` takes what is between two such places;
  * `Report.render?` renders a report from slices of the source, and has no result if one
    of them is out of range or begins or ends inside a character;
  * `render?_eq`: there is a result at every place in the source, the one that
    `Report.render` gives;
  * `reports_rendered`: every report on a source can be rendered.
-/
import DanishProse.Proofs.Carets
import DanishProse.Proofs.Messages

namespace DanishProse

/-! ## Slices -/

/-- How many bytes characters take. -/
def bytesOf (cs : List Char) : Nat :=
  (String.ofList cs).utf8ByteSize

/-- A text cut at a count of bytes; there is nothing to cut behind the end or inside a
    character. -/
def cut? (cs : List Char) (pos : Nat) : Option (List Char × List Char) :=
  let parts := cutAtByte pos cs
  if bytesOf parts.1 = pos then some parts else none

/-- What stands between two counts of bytes. -/
def slice? (cs : List Char) (first last : Nat) : Option (List Char) := do
  let (front, _) ← cut? cs last
  let (_, between) ← cut? front first
  return between

/-- A character that ends a line that is shown. -/
def endsLine (c : Char) : Bool :=
  c = '\n' || c = '\r'

/-- The line around a count of bytes, without its indentation, and the column of the place
    in it.  Only the last slice, between the indentation and the place, may be missing. -/
def excerpt? (cs : List Char) (pos : Nat) : Option (List Char × Nat) := do
  let (front, behind) ← cut? cs (min pos (bytesOf cs))
  let shown := if behind.all Text.isBlank then bytesOf (Text.trimRight front) else bytesOf front
  let (front, _) ← cut? cs shown
  let first := bytesOf (front.rdropWhile (· ≠ '\n'))
  let (_, rest) ← cut? cs first
  let last := if rest.any endsLine then first + bytesOf (rest.takeWhile fun c => !endsLine c)
    else bytesOf cs
  let whole ← slice? cs first last
  let line := Text.trimLeft whole
  let indent := bytesOf whole - bytesOf line
  let column := ((slice? cs (first + indent) shown).map List.length).getD 0
  return (line, column)

/-- A rendering from slices. -/
def Report.render? (r : Report) (source file : String) : Option String :=
  (excerpt? source.toList r.location.pos).map fun parts => r.withLine file parts.1 parts.2

section
variable {cs ds : List Char}

theorem bytesOf_append (cs ds : List Char) : bytesOf (cs ++ ds) = bytesOf cs + bytesOf ds := by
  rw [bytesOf, String.ofList_append, String.utf8ByteSize_append]
  rfl

theorem bytesOf_cons (c : Char) (cs : List Char) : bytesOf (c :: cs) = c.utf8Size + bytesOf cs := by
  rw [← List.singleton_append, bytesOf_append, bytesOf, ← String.singleton_eq_ofList,
    String.utf8ByteSize_singleton]

theorem cut?_append (cs ds : List Char) : cut? (cs ++ ds) (bytesOf cs) = some (cs, ds) := by
  have hparts : cutAtByte (bytesOf cs) (cs ++ ds) = (cs, ds) := cutAtByte_append cs ds
  rw [cut?, hparts]
  exact if_pos rfl

theorem slice?_append (cs ds es : List Char) :
    slice? (cs ++ ds ++ es) (bytesOf cs) (bytesOf (cs ++ ds)) = some ds := by
  rw [slice?, cut?_append]
  show ((cut? (cs ++ ds) (bytesOf cs)).bind fun parts => some parts.2) = some ds
  rw [cut?_append]
  rfl

/-- There is nothing behind the end of a text. -/
theorem cut?_eq_none {n : Nat} (h : bytesOf cs < n) : cut? cs n = none := by
  have hall : (cutAtByte n cs).1 = cs := by
    induction cs generalizing n with
    | nil => rfl
    | cons c cs ih =>
      rw [bytesOf_cons] at h
      rw [cutAtByte, if_neg (by omega)]
      exact congrArg (List.cons c) (ih (by omega))
  rw [cut?, hall]
  exact if_neg (Nat.ne_of_lt h)

end

/-! ## Renderings -/

section
variable {start front indent rest : List Char}

/-- What stands between the indentation of a line and a place in it has as many characters
    as the place has before it, without the indentation. -/
theorem length_slice? (h : indent <+: front ++ rest) :
    ((slice? (start ++ front ++ rest) (bytesOf start + bytesOf indent) (bytesOf (start ++ front))).map
      List.length).getD 0 = front.length - indent.length := by
  rw [← bytesOf_append]
  rcases List.prefix_or_prefix_of_prefix h (List.prefix_append front rest) with hinside | hbehind
  · obtain ⟨between, rfl⟩ := hinside
    have hslice := slice?_append (start ++ indent) between rest
    rw [List.append_assoc start indent between] at hslice
    rw [hslice]
    simp
  · obtain ⟨more, rfl⟩ := hbehind
    rcases more with _ | ⟨c, more⟩
    · have hslice := slice?_append (start ++ front) [] rest
      rw [List.append_nil] at hslice
      rw [List.append_nil, hslice]
      simp
    · have hbytes : bytesOf (start ++ front) < bytesOf (start ++ (front ++ c :: more)) := by
        have hpos := c.utf8Size_pos
        simp only [bytesOf_append, bytesOf_cons]
        omega
      have hcut := cut?_append (start ++ front) rest
      rw [slice?, hcut]
      show (((cut? (start ++ front) _).bind fun parts => some parts.2).map List.length).getD 0 = _
      rw [cut?_eq_none hbytes]
      simp

/-- A line ends where the first character is that ends it, or with the text. -/
theorem last_eq (start rest : List Char) :
    (if rest.any endsLine then bytesOf start + bytesOf (rest.takeWhile fun c => !endsLine c)
      else bytesOf (start ++ rest)) = bytesOf (start ++ rest.takeWhile fun c => !endsLine c) := by
  split_ifs with hany
  · rw [bytesOf_append]
  · rw [List.takeWhile_eq_self_iff.2]
    intro c hc
    rw [Bool.not_eq_true', Bool.eq_false_iff]
    exact fun hends => hany (List.any_eq_true.2 ⟨c, hc, hends⟩)

end

/-- The place that is shown is at the end of a front of what stands before. -/
theorem exists_shown (before behind : List Char) : ∃ tail,
    before = (if behind.all Text.isBlank then Text.trimRight before else before) ++ tail := by
  split_ifs
  · obtain ⟨tail, htail⟩ := List.rdropWhile_prefix Text.isBlank before
    exact ⟨tail, htail.symm⟩
  · exact ⟨[], (List.append_nil _).symm⟩

/-- What stands before the place, in its line, and what comes behind. -/
theorem around_append {before behind visible tail : List Char} (hsplit : before = visible ++ tail)
    (hvisible : (if behind.all Text.isBlank then Text.trimRight before else before) = visible) :
    Excerpt.around (before ++ behind) (bytesOf before) =
      ⟨visible.rtakeWhile (· ≠ '\n'), tail ++ behind⟩ := by
  have hparts : cutAtByte (bytesOf before) (before ++ behind) = (before, behind) := cutAtByte_append _ _
  have htail : before.drop visible.length = tail := by rw [hsplit, List.drop_left]
  unfold Excerpt.around
  rw [hparts]
  dsimp only
  rw [hvisible, htail]
  rfl

/-- The line that is shown can be sliced off the text, and what its indentation leaves of it
    before the place. -/
theorem slices_eq (start front rest : List Char) :
    let line := (⟨front, rest⟩ : Excerpt).line
    let shown := (⟨front, rest⟩ : Excerpt).shown
    slice? (start ++ (front ++ rest)) (bytesOf start) (bytesOf (start ++ line)) = some line ∧
      ((slice? (start ++ (front ++ rest)) (bytesOf start + (bytesOf line - bytesOf shown))
        (bytesOf (start ++ front))).map List.length).getD 0 = (⟨front, rest⟩ : Excerpt).column := by
  intro line shown
  obtain ⟨after, hafter⟩ : line <+: front ++ rest := List.takeWhile_prefix _
  have hindent : line.takeWhile Text.isBlank ++ shown = line := List.takeWhile_append_dropWhile
  have hcolumn : (⟨front, rest⟩ : Excerpt).column = front.length - (line.length - shown.length) := rfl
  have hprefix : line.takeWhile Text.isBlank <+: front ++ rest :=
    (List.takeWhile_prefix _).trans ⟨after, hafter⟩
  rw [hcolumn]
  generalize line.takeWhile Text.isBlank = indent at hindent hprefix
  clear_value line shown
  subst hindent
  constructor
  · rw [← hafter, ← List.append_assoc]
    exact slice?_append _ _ _
  · have hbytes : bytesOf (indent ++ shown) - bytesOf shown = bytesOf indent := by
      rw [bytesOf_append, Nat.add_sub_cancel]
    rw [hbytes, ← List.append_assoc, length_slice? hprefix, List.length_append, Nat.add_sub_cancel]

/-- **What is shown of a text around a place can be sliced off it.** -/
theorem excerpt?_append (before behind : List Char) :
    let e := Excerpt.around (before ++ behind) (bytesOf before)
    excerpt? (before ++ behind) (bytesOf before) = some (e.shown, e.column) := by
  have hmin : min (bytesOf before) (bytesOf (before ++ behind)) = bytesOf before := by
    rw [bytesOf_append, Nat.min_eq_left (Nat.le_add_right _ _)]
  obtain ⟨tail, hsplit⟩ := exists_shown before behind
  generalize hvisible : (if behind.all Text.isBlank then Text.trimRight before else before) = visible at hsplit
  have hshown : (if behind.all Text.isBlank then bytesOf (Text.trimRight before) else bytesOf before) =
      bytesOf visible := by
    rw [← hvisible]
    split_ifs <;> rfl
  have hfront : visible.rdropWhile (· ≠ '\n') ++ visible.rtakeWhile (· ≠ '\n') = visible :=
    List.rdropWhile_append_rtakeWhile
  have hwhole : before ++ behind = visible ++ (tail ++ behind) := by rw [hsplit, List.append_assoc]
  rw [around_append hsplit hvisible]
  unfold excerpt?
  -- the cuts at the place, where it is moved to, and where its line begins
  rw [hmin, cut?_append]
  simp only [Option.bind_eq_bind, Option.bind_some, hshown]
  rw [hwhole, cut?_append]
  simp only [Option.bind_some]
  generalize visible.rdropWhile (· ≠ '\n') = start at *
  generalize visible.rtakeWhile (· ≠ '\n') = front at *
  subst hfront
  generalize tail ++ behind = rest
  rw [List.append_assoc start front rest, cut?_append]
  simp only [Option.bind_some]
  have hline : (⟨front, rest⟩ : Excerpt).line = (front ++ rest).takeWhile fun c => !endsLine c := by
    rw [Excerpt.line]
    congr 1
    funext c
    simp [endsLine]
  obtain ⟨hslice, hcolumn⟩ := slices_eq start front rest
  rw [last_eq, ← hline, hslice]
  simp only [Option.bind_some]
  exact congrArg (fun column => some ((⟨front, rest⟩ : Excerpt).shown, column)) hcolumn

/-- **At a place in the source, there is nothing that cannot be sliced.** -/
theorem Report.render?_eq {r : Report} {source before behind : String} (hsource : source = before ++ behind)
    (hplace : r.location.pos = before.utf8ByteSize) (file : String) :
    r.render? source file = some (r.render source file) := by
  have hlist : source.toList = before.toList ++ behind.toList := by rw [hsource, String.toList_append]
  have hbytes : r.location.pos = bytesOf before.toList := by rw [hplace, bytesOf, String.ofList_toList]
  rw [r.render_eq, Report.render?, hlist, hbytes, excerpt?_append]
  rfl

/-- **Every report can be rendered.**  What is reported on a source that has no program is
    reported at a place in the source: at a count of bytes that ends a character, with the
    lines and the bytes of the line before it.  So nothing that a rendering slices off the
    source is out of range or ends inside a character. -/
theorem reports_rendered {source : String} {reports : List Report} (h : compile source = .error reports) :
    ∀ r ∈ reports, r.location.pos ≤ source.utf8ByteSize ∧
      String.Pos.Raw.IsValid source ⟨r.location.pos⟩ ∧
        (∃ before behind, source = before ++ behind ∧ r.location = .behind before) ∧
          ∀ file, r.render? source file = some (r.render source file) := by
  obtain ⟨-, rfl⟩ := compile_eq_error_iff.1 h
  intro r hr
  obtain ⟨before, behind, hsource, hplace⟩ := (reports_from r hr).place
  have hpos : r.location.pos = before.utf8ByteSize := congrArg Location.pos hplace
  have hvalid : String.Pos.Raw.IsValid source ⟨r.location.pos⟩ := by
    rw [hpos]
    exact String.Pos.Raw.isValid_iff_exists_append.2 ⟨before, behind, hsource, rfl⟩
  exact ⟨hvalid.le_rawEndPos, hvalid, ⟨before, behind, hsource, hplace⟩,
    fun file => Report.render?_eq hsource hpos file⟩

/-- A definition that ends before its block does, with characters of two bytes before. -/
def unfinishedSource : String :=
  "Offentlig funktion æ tilbagegiver heltal.\nGoddag.\n  Ø."

/-- What is missing at the end is reported at the end, and can be shown. -/
theorem unfinished_rendered :
    let reports : List Report := [⟨.unexpectedToken "farvel" "end of input", ⟨56, 2, 5⟩⟩,
      ⟨.unexpectedToken "'.'" "end of input", ⟨56, 2, 5⟩⟩]
    compile unfinishedSource = .error reports ∧
      ∀ r ∈ reports, r.location.pos ≤ unfinishedSource.utf8ByteSize ∧
        String.Pos.Raw.IsValid unfinishedSource ⟨r.location.pos⟩ ∧
          (∃ before behind, unfinishedSource = before ++ behind ∧ r.location = .behind before) ∧
            ∀ file, r.render? unfinishedSource file = some (r.render unfinishedSource file) := by
  intro reports
  have hreports : (Analysis.ofSource unfinishedSource).reports = reports := by decide +kernel
  have hcompile : compile unfinishedSource = .error reports :=
    compile_eq_error_iff.2 ⟨List.cons_ne_nil _ _, hreports⟩
  exact ⟨hcompile, reports_rendered hcompile⟩

end DanishProse

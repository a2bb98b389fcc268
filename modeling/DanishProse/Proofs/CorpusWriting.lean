/-
  Files of cases that are written are read back.

  * `Storable` says which texts can be parts of a case in a file: trimmed, and without the
    delimiters and without a carriage return right before a line feed;
  * an `Entry` is a case with the lengths of the runs in front of its parts, and `Entry.text`
    writes it, every run and every part on a line of its own; `withReturns` puts carriage returns
    before the line feeds that are chosen;
  * `splitRuns_blocks`: blocks with runs in front of them are split where they were joined;
  * `ofText_written`: a file of entries has their cases and no errors.
-/
import Mathlib.Data.List.Chain
import Mathlib.Data.List.DropRight
import Mathlib.Data.List.Infix
import DanishProse.Proofs.Divisions

namespace DanishProse

/-! ## Line ends -/

/-- A text with a carriage return before those of its line feeds that are chosen, by their number
    from `k` on. -/
def withReturns (chosen : Nat → Bool) (k : Nat) : List Char → List Char
  | [] => []
  | c :: cs =>
    if c = '\n' then
      (if chosen k then ['\r', '\n'] else ['\n']) ++ withReturns chosen (k + 1) cs
    else c :: withReturns chosen k cs

/-- A carriage return and a line feed stand nowhere side by side. -/
def Unpaired (cs : List Char) : Prop :=
  cs.IsChain fun c d => ¬ (c = '\r' ∧ d = '\n')

theorem unpaired_iff {cs : List Char} : Unpaired cs ↔ ¬ ['\r', '\n'] <:+: cs := by
  rw [Unpaired, List.isChain_iff_forall_rel_of_append_cons_cons]
  constructor
  · rintro h ⟨before, behind, hsplit⟩
    rw [List.append_assoc] at hsplit
    exact h hsplit.symm ⟨rfl, rfl⟩
  · rintro h c d before behind hsplit ⟨rfl, rfl⟩
    exact h ⟨before, behind, by rw [hsplit, List.append_assoc]; rfl⟩

theorem unifyLineEnds_cons {c : Char} {cs : List Char} (h : c = '\r' → cs.head? ≠ some '\n') :
    unifyLineEnds (c :: cs) = c :: unifyLineEnds cs := by
  cases cs with
  | nil => rfl
  | cons d cs =>
    rw [unifyLineEnds, if_neg]
    rintro ⟨hc, rfl⟩
    exact h hc rfl

/-- **Line ends are read as one character however they are written.** -/
theorem unifyLineEnds_withReturns {cs : List Char} (h : Unpaired cs) (chosen : Nat → Bool) (k : Nat) :
    unifyLineEnds (withReturns chosen k cs) = cs := by
  induction cs generalizing k with
  | nil => rfl
  | cons c cs ih =>
    have hrest := ih h.tail
    rw [withReturns]
    split_ifs with hc hchosen
    · rw [List.cons_append, List.cons_append, List.nil_append, unifyLineEnds, if_pos ⟨rfl, rfl⟩, hrest, hc]
    · rw [List.cons_append, List.nil_append, unifyLineEnds_cons fun h => absurd h (by decide), hrest, hc]
    · rw [unifyLineEnds_cons, hrest]
      rintro rfl
      cases cs with
      | nil =>
        rw [withReturns]
        exact (Option.some_ne_none _).symm
      | cons d cs =>
        have hd : d ≠ '\n' := fun hd => (List.isChain_cons_cons.1 h).1 ⟨rfl, hd⟩
        rw [withReturns, if_neg hd]
        exact fun h => hd (Option.some.inj h)

/-! ## Lines -/

/-- A text on a line of its own. -/
def lineOf (cs : List Char) : List Char :=
  cs ++ ['\n']

theorem unpaired_lines {lines : List (List Char)}
    (h : ∀ cs ∈ lines, Unpaired cs ∧ cs.getLast? ≠ some '\r') : Unpaired (lines.flatMap lineOf) := by
  induction lines with
  | nil => exact .nil
  | cons cs lines ih =>
    obtain ⟨⟨hcs, hlast⟩, hlines⟩ := List.forall_mem_cons.1 h
    rw [List.flatMap_cons, lineOf]
    refine .append (.append hcs (.singleton _) ?_) (ih hlines) ?_
    · rintro c hc d - ⟨rfl, -⟩
      exact hlast hc
    · rintro c hc d - ⟨rfl, -⟩
      rw [List.getLast?_concat] at hc
      cases hc

/-! ## Trimmed texts -/

section
variable {t : List Char}

theorem trimLeft_of_trimmed (h : Text.trim t = t) : Text.trimLeft t = t := by
  have hsuffix : Text.trimLeft t <:+ t := List.dropWhile_suffix _
  have hlen : t.length ≤ (Text.trimLeft t).length := by
    have hprefix : Text.trim t <+: Text.trimLeft t := List.rdropWhile_prefix Text.isBlank _
    rw [h] at hprefix
    exact hprefix.length_le
  exact hsuffix.eq_of_length (Nat.le_antisymm hsuffix.length_le hlen)

theorem trimRight_of_trimmed (h : Text.trim t = t) : Text.trimRight t = t := by
  rw [Text.trim, trimLeft_of_trimmed h] at h
  exact h

/-- The last character of a trimmed text is not blank. -/
theorem getLast?_of_trimmed (h : Text.trim t = t) {c : Char} (hc : Text.isBlank c = true) :
    t.getLast? ≠ some c := by
  intro hlast
  have hright : t.rdropWhile Text.isBlank = t := trimRight_of_trimmed h
  have hne : t ≠ [] := by
    rintro rfl
    cases hlast
  rw [List.getLast?_eq_some_getLast hne] at hlast
  refine List.rdropWhile_eq_self_iff.1 hright hne ?_
  rw [Option.some.inj hlast]
  exact hc

/-- Line ends around a trimmed text are trimmed off. -/
theorem trim_line (h : Text.trim t = t) : Text.trim ('\n' :: lineOf t) = t := by
  have hnewline : Text.isBlank '\n' = true := by decide
  have hleft : Text.trimLeft ('\n' :: lineOf t) = Text.trimLeft (lineOf t) :=
    List.dropWhile_cons_of_pos hnewline
  rw [Text.trim, hleft]
  cases t with
  | nil => rfl
  | cons c cs =>
    have hc : ¬ Text.isBlank c = true := by
      intro hc
      have hshort := congrArg List.length (trimLeft_of_trimmed h)
      rw [Text.trimLeft, List.dropWhile_cons_of_pos hc, List.length_cons] at hshort
      have hle := (List.dropWhile_suffix Text.isBlank (l := cs)).length_le
      omega
    have hline : Text.trimLeft (lineOf (c :: cs)) = lineOf (c :: cs) := List.dropWhile_cons_of_neg hc
    rw [hline]
    exact (List.rdropWhile_concat_pos Text.isBlank _ _ hnewline).trans (trimRight_of_trimmed h)

end

/-! ## Blocks -/

/-- Blocks with runs of a character in front of them, which are as long as is said. -/
def blocksText (d : Char) (blocks : List (Nat × List Char)) : List Char :=
  blocks.flatMap fun b => List.replicate b.1 d ++ b.2

theorem divided_blocks {d : Char} {blocks : List (Nat × List Char)}
    (h : ∀ b ∈ blocks, 0 < b.1 ∧ d ∉ b.2 ∧ b.2 ≠ []) : ∀ {front : List Char} (o : Nat), d ∉ front →
      ∃ cuts, Divided d o (front ++ blocksText d blocks) cuts ∧
        cuts.map Cut.text = front :: blocks.map Prod.snd := by
  induction blocks with
  | nil =>
    intro front o hfront
    rw [blocksText, List.flatMap_nil, List.append_nil]
    exact ⟨_, .whole hfront, rfl⟩
  | cons b blocks ih =>
    intro front o hfront
    obtain ⟨⟨hpos, hfree, hne⟩, hblocks⟩ := List.forall_mem_cons.1 h
    obtain ⟨cuts, hcuts, htexts⟩ := ih hblocks (o + bytesOf (front ++ List.replicate b.1 d)) hfree
    have hhead : (b.2 ++ blocksText d blocks).head? ≠ some d := by
      cases hb : b.2 with
      | nil => exact absurd hb hne
      | cons c cs =>
        rw [hb] at hfree
        exact fun h => hfree (Option.some.inj h ▸ List.mem_cons_self)
    have hwhole : front ++ blocksText d (b :: blocks) =
        front ++ List.replicate b.1 d ++ (b.2 ++ blocksText d blocks) := by
      simp only [blocksText, List.flatMap_cons, List.append_assoc]
    rw [hwhole]
    exact ⟨_, .cut hfront hpos hhead hcuts, by rw [List.map_cons, htexts, List.map_cons]⟩

/-- **Blocks are split where they were joined.** -/
theorem splitRuns_blocks {d : Char} {front : List Char} {blocks : List (Nat × List Char)} (hfront : d ∉ front)
    (h : ∀ b ∈ blocks, 0 < b.1 ∧ d ∉ b.2 ∧ b.2 ≠ []) :
    (splitRuns d (front ++ blocksText d blocks)).map Cut.text = front :: blocks.map Prod.snd := by
  obtain ⟨cuts, hcuts, htexts⟩ := divided_blocks h 0 hfront
  rw [← divided_iff.1 hcuts, htexts]

namespace Corpus

/-! ## Entries -/

/-- A text that can be a part of a case in a file. -/
structure Storable (text : String) : Prop where
  trimmed : Text.trim text.toList = text.toList
  sections : sectionDelimiter ∉ text.toList
  parts : partDelimiter ∉ text.toList
  lineEnds : ¬ ['\r', '\n'] <:+: text.toList

instance (text : String) : Decidable (Storable text) :=
  decidable_of_iff (Text.trim text.toList = text.toList ∧ sectionDelimiter ∉ text.toList ∧
      partDelimiter ∉ text.toList ∧ ¬ ['\r', '\n'] <:+: text.toList)
    ⟨fun ⟨ht, hs, hp, hl⟩ => ⟨ht, hs, hp, hl⟩, fun ⟨ht, hs, hp, hl⟩ => ⟨ht, hs, hp, hl⟩⟩

/-- A case that can be written. -/
structure Case.Storable (c : Case) : Prop where
  name : Corpus.Storable c.name
  source : Corpus.Storable c.source
  expected : Corpus.Storable c.expected

instance (c : Case) : Decidable c.Storable :=
  decidable_of_iff (Corpus.Storable c.name ∧ Corpus.Storable c.source ∧ Corpus.Storable c.expected)
    ⟨fun ⟨hn, hs, he⟩ => ⟨hn, hs, he⟩, fun ⟨hn, hs, he⟩ => ⟨hn, hs, he⟩⟩

/-- A case, and how long the runs in front of its name, its program and its output are. -/
structure Entry where
  content : Case
  heading : Nat
  middle : Nat
  last : Nat
  heading_pos : 0 < heading := by decide
  middle_pos : 0 < middle := by decide
  last_pos : 0 < last := by decide

/-- The lines of an entry. -/
def Entry.lines (e : Entry) : List (List Char) := [
  List.replicate e.heading sectionDelimiter, e.content.name.toList,
  List.replicate e.middle partDelimiter, e.content.source.toList,
  List.replicate e.last partDelimiter, e.content.expected.toList]

/-- An entry as it is written. -/
def Entry.text (e : Entry) : List Char :=
  e.lines.flatMap lineOf

/-- What comes behind the first run of an entry. -/
def Entry.body (e : Entry) : List Char :=
  '\n' :: lineOf e.content.name.toList ++ blocksText partDelimiter [
    (e.middle, '\n' :: lineOf e.content.source.toList), (e.last, '\n' :: lineOf e.content.expected.toList)]

theorem Entry.text_eq (e : Entry) : e.text = List.replicate e.heading sectionDelimiter ++ e.body := by
  simp [Entry.text, Entry.lines, Entry.body, blocksText, lineOf]

section
variable {e : Entry} {t : List Char} {d : Char}

theorem not_mem_line (hd : d ≠ '\n') (h : d ∉ t) : d ∉ '\n' :: lineOf t := by
  rw [lineOf, List.mem_cons, List.mem_append, List.mem_singleton]
  rintro (h' | h' | h')
  · exact hd h'
  · exact h h'
  · exact hd h'

theorem not_mem_body (h : e.content.Storable) : sectionDelimiter ∉ e.body := by
  have hline : sectionDelimiter ≠ '\n' := by decide
  have hrun (n : Nat) : sectionDelimiter ∉ List.replicate n partDelimiter :=
    fun h => absurd (List.eq_of_mem_replicate h) (by decide)
  rw [Entry.body, blocksText, List.flatMap_cons, List.flatMap_cons, List.flatMap_nil, List.append_nil]
  simp only [List.mem_append, not_or]
  exact ⟨not_mem_line hline h.name.sections, ⟨hrun _, not_mem_line hline h.source.sections⟩,
    hrun _, not_mem_line hline h.expected.sections⟩

/-- There is something to see in an entry: the runs in front of its parts. -/
theorem body_visible (e : Entry) : e.body.all Text.isBlank = false := by
  have hmem : partDelimiter ∈ e.body := by
    rw [Entry.body, blocksText, List.flatMap_cons]
    exact List.mem_append_right _ (List.mem_append_left _ (List.mem_append_left _
      (List.mem_replicate.2 ⟨e.middle_pos.ne', rfl⟩)))
  refine List.all_eq_false.2 ⟨_, hmem, ?_⟩
  decide

/-- The parts of an entry are its case again. -/
theorem caseOf_body (h : e.content.Storable) {s : Cut} (hs : s.text = e.body) :
    caseOf s = .ok e.content := by
  have hline : partDelimiter ≠ '\n' := by decide
  have hblocks : ∀ b ∈ [(e.middle, '\n' :: lineOf e.content.source.toList),
      (e.last, '\n' :: lineOf e.content.expected.toList)], 0 < b.1 ∧ partDelimiter ∉ b.2 ∧ b.2 ≠ [] :=
    List.forall_mem_cons.2 ⟨⟨e.middle_pos, not_mem_line hline h.source.parts, List.cons_ne_nil _ _⟩,
      List.forall_mem_singleton.2 ⟨e.last_pos, not_mem_line hline h.expected.parts, List.cons_ne_nil _ _⟩⟩
  have hparts := splitRuns_blocks (not_mem_line hline h.name.parts) hblocks
  rw [← Entry.body, ← hs] at hparts
  obtain ⟨name, others, hcuts, hname, hothers⟩ := List.map_eq_cons_iff.1 hparts
  obtain ⟨source, others, rfl, hsource, hothers⟩ := List.map_eq_cons_iff.1 hothers
  obtain ⟨expected, others, rfl, hexpected, -⟩ := List.map_eq_cons_iff.1 hothers
  rw [caseOf, hcuts]
  dsimp only at hname hsource hexpected ⊢
  rw [hname, hsource, hexpected, trim_line h.name.trimmed, trim_line h.source.trimmed,
    trim_line h.expected.trimmed]
  simp only [String.ofList_toList]

/-- No line of an entry ends in a carriage return, and none has one before a line feed. -/
theorem lines_unpaired (h : e.content.Storable) :
    ∀ cs ∈ e.lines, Unpaired cs ∧ cs.getLast? ≠ some '\r' := by
  have hpart {text : String} (h : Storable text) :
      Unpaired text.toList ∧ text.toList.getLast? ≠ some '\r' :=
    ⟨unpaired_iff.2 h.lineEnds, getLast?_of_trimmed h.trimmed (by decide)⟩
  have hrun {d : Char} (hd : d ≠ '\r') (n : Nat) :
      Unpaired (List.replicate n d) ∧ (List.replicate n d).getLast? ≠ some '\r' := by
    refine ⟨List.isChain_replicate_of_rel n fun h => hd h.1, fun hlast => hd ?_⟩
    exact (List.eq_of_mem_replicate (List.mem_of_getLast? hlast)).symm
  have hsection : sectionDelimiter ≠ '\r' := by decide
  have hmiddle : partDelimiter ≠ '\r' := by decide
  simp only [Entry.lines, List.forall_mem_cons]
  exact ⟨hrun hsection _, hpart h.name, hrun hmiddle _, hpart h.source, hrun hmiddle _, hpart h.expected,
    List.forall_mem_nil _⟩

end

/-! ## Files -/

section
variable {entries : List Entry}

/-- The text of entries, with one character at the end of each line. -/
def fileText (entries : List Entry) : List Char :=
  entries.flatMap Entry.text

theorem fileText_eq (entries : List Entry) :
    fileText entries = blocksText sectionDelimiter (entries.map fun e => (e.heading, e.body)) := by
  rw [fileText, blocksText, List.flatMap_map]
  exact List.flatMap_congr fun e _ => e.text_eq

theorem fileText_unpaired (h : ∀ e ∈ entries, e.content.Storable) : Unpaired (fileText entries) := by
  have hlines : fileText entries = (entries.flatMap Entry.lines).flatMap lineOf := by
    rw [List.flatMap_assoc]
    rfl
  rw [hlines]
  refine unpaired_lines fun cs hcs => ?_
  obtain ⟨e, he, hcs⟩ := List.mem_flatMap.1 hcs
  exact lines_unpaired (h e he) cs hcs

/-- The sections of a file are the bodies of its entries. -/
theorem sections_fileText (h : ∀ e ∈ entries, e.content.Storable) :
    (sections (fileText entries)).map Cut.text = entries.map Entry.body := by
  have hblocks : ∀ b ∈ entries.map fun e => (e.heading, e.body),
      0 < b.1 ∧ sectionDelimiter ∉ b.2 ∧ b.2 ≠ [] := by
    refine List.forall_mem_map.2 fun e he => ⟨e.heading_pos, not_mem_body (h e he), ?_⟩
    exact List.cons_ne_nil _ _
  have hfront : sectionDelimiter ∉ ([] : List Char) := List.not_mem_nil
  have hcuts := splitRuns_blocks hfront hblocks
  rw [List.nil_append, ← fileText_eq, List.map_map] at hcuts
  have hfilter : (sections (fileText entries)).map Cut.text =
      ((splitRuns sectionDelimiter (fileText entries)).map Cut.text).filter
        fun t => !t.all Text.isBlank := by
    rw [sections, List.filter_map]
    rfl
  rw [hfilter, hcuts, List.filter_cons_of_neg (by decide)]
  refine List.filter_eq_self.2 (List.forall_mem_map.2 fun e _ => ?_)
  exact congrArg not (body_visible e)

/-- Sections that are the bodies of entries are their cases. -/
theorem map_caseOf (h : ∀ e ∈ entries, e.content.Storable) {ss : List Cut}
    (hss : ss.map Cut.text = entries.map Entry.body) :
    ss.map caseOf = entries.map fun e => .ok e.content := by
  induction entries generalizing ss with
  | nil =>
    rw [List.map_eq_nil_iff.1 hss]
    rfl
  | cons e entries ih =>
    obtain ⟨he, hentries⟩ := List.forall_mem_cons.1 h
    obtain ⟨s, ss, rfl, hs, hss⟩ := List.map_eq_cons_iff.1 hss
    rw [List.map_cons, List.map_cons, caseOf_body he hs, ih hentries hss]

/-- **Files round-trip.**  Entries whose parts are trimmed and have no delimiters and no line ends
    of two characters, written with runs of any lengths and with any choice of line ends, are read
    back in order, and there is no error. -/
theorem ofText_written (h : ∀ e ∈ entries, e.content.Storable) (chosen : Nat → Bool) :
    ofText (String.ofList (withReturns chosen 0 (fileText entries))) = ⟨entries.map Entry.content, []⟩ := by
  have htext : unifyLineEnds (String.ofList (withReturns chosen 0 (fileText entries))).toList =
      fileText entries := by
    rw [String.toList_ofList, unifyLineEnds_withReturns (fileText_unpaired h)]
  rw [ofText_eq, htext, map_caseOf h (sections_fileText h), Corpus.mk.injEq]
  constructor
  · rw [List.filterMap_map]
    exact congrFun List.filterMap_eq_map entries
  · rw [List.filterMap_map]
    exact List.filterMap_eq_nil_iff.2 fun e _ => rfl

end

/-- Two cases of a file with line ends of both kinds: one has no program, and one a program of two
    lines. -/
theorem ofText_written_two :
    let entries : List Entry := [
      { content := ⟨"tælle", "", "1"⟩, heading := 3, middle := 1, last := 2 },
      { content := ⟨"", "Tallet er 1.\nÅbn det.", "én"⟩, heading := 1, middle := 2, last := 1 }]
    ofText "═══\r\ntælle\n─\r\n\n──\r\n1\n═\r\n\n──\r\nTallet er 1.\nÅbn det.\r\n─\nén\r\n" =
      ⟨entries.map Entry.content, []⟩ := by
  intro entries
  have hstorable : ∀ e ∈ entries, e.content.Storable := by
    decide +kernel
  exact ofText_written hstorable fun k => k % 2 = 0

end Corpus

end DanishProse

/-
  Texts divided at the runs of a character, and what becomes of the sections of a corpus.

  * `Divided d o text cuts`: the text, whose first byte has the offset `o`, is made of the pieces
    `cuts`, in this order and at their offsets, with a run of `d` between any two of them.  No
    piece has the character in it, and a run ends where something else follows, so no run could be
    longer;
  * `divided_iff`: `splitRuns` gives these pieces and no others;
  * `LinesUnified`: a text, and the same one with one character at the end of each line;
    `linesUnified_iff`: this is what `unifyLineEnds` gives;
  * `Corpus.Becomes whole s outcome`: what a section counts as, a case if it has three parts, and
    else an error at its first visible character;
  * `sections_kept`: each section with something to see becomes one or the other, in order.
-/
import DanishProse.Corpus.Case
import DanishProse.Proofs.Slices

namespace DanishProse

/-! ## Pieces and runs -/

/-- A text made of pieces and of the longest runs of a character between them. -/
inductive Divided (d : Char) : Nat → List Char → List Cut → Prop
  | whole {o : Nat} {text : List Char} : d ∉ text → Divided d o text [⟨o, text⟩]
  | cut {o n : Nat} {piece rest : List Char} {cuts : List Cut} : d ∉ piece → 0 < n → rest.head? ≠ some d →
      Divided d (o + bytesOf (piece ++ List.replicate n d)) rest cuts →
      Divided d o (piece ++ List.replicate n d ++ rest) (⟨o, piece⟩ :: cuts)

theorem byteCount_eq (cs : List Char) : byteCount cs = bytesOf cs := by
  induction cs with
  | nil => rfl
  | cons c cs ih => rw [byteCount, ih, bytesOf_cons]

section
variable {d c : Char} {o : Nat} {cs text : List Char} {first : Cut} {others cuts : List Cut}

/-- A character in front of a text belongs to its first piece. -/
theorem Divided.cons (hc : c ≠ d) (h : Divided d (o + c.utf8Size) cs (first :: others)) :
    Divided d o (c :: cs) (⟨o, c :: first.text⟩ :: others) := by
  cases h with
  | whole hfree => exact .whole (List.not_mem_cons_of_ne_of_not_mem hc.symm hfree)
  | @cut _ n piece rest _ hfree hn hrest hmore =>
    have hoffset : o + bytesOf (c :: piece ++ List.replicate n d) =
        o + c.utf8Size + bytesOf (piece ++ List.replicate n d) := by
      rw [List.cons_append, bytesOf_cons, Nat.add_assoc]
    rw [← hoffset] at hmore
    exact .cut (List.not_mem_cons_of_ne_of_not_mem hc.symm hfree) hn hrest hmore

/-- A run in front of a text ends an empty piece. -/
theorem Divided.run {n : Nat} (hcs : cs.head? ≠ some d)
    (h : Divided d (o + bytesOf (List.replicate (n + 1) d)) cs cuts) :
    Divided d o (List.replicate (n + 1) d ++ cs) (⟨o, []⟩ :: cuts) :=
  .cut (List.not_mem_nil : d ∉ ([] : List Char)) n.succ_pos hcs h

theorem bytesOf_replicate_succ (n : Nat) (d : Char) :
    bytesOf (List.replicate (n + 1) d) = d.utf8Size + bytesOf (List.replicate n d) := by
  rw [List.replicate_succ, bytesOf_cons]

/-- The pieces of a text that begins at an offset, or of what is left of it behind a run. -/
def splitAll (d : Char) (o : Nat) (inRun : Bool) (cs : List Char) : List Cut :=
  (splitFrom d o inRun cs).1 :: (splitFrom d o inRun cs).2

theorem splitAll_delimiter (d : Char) (o : Nat) (cs : List Char) :
    splitAll d o false (d :: cs) = ⟨o, []⟩ :: splitAll d (o + d.utf8Size) true cs ∧
      splitAll d o true (d :: cs) = splitAll d (o + d.utf8Size) true cs := by
  constructor
  · rw [splitAll, splitFrom, if_pos rfl]
    rfl
  · rw [splitAll, splitFrom, if_pos rfl]
    rfl

theorem splitAll_other (hc : c ≠ d) (o : Nat) (inRun : Bool) (cs : List Char) :
    splitAll d o inRun (c :: cs) = ⟨o, c :: (splitFrom d (o + c.utf8Size) false cs).1.text⟩ ::
      (splitFrom d (o + c.utf8Size) false cs).2 := by
  rw [splitAll, splitFrom, if_neg hc]

/-- What `splitFrom` gives for a text, and for what comes behind a character of a run. -/
theorem divided_splitAll (d : Char) (cs : List Char) : ∀ o, Divided d o cs (splitAll d o false cs) ∧
    ∃ n rest, cs = List.replicate n d ++ rest ∧ rest.head? ≠ some d ∧
      Divided d (o + bytesOf (List.replicate n d)) rest (splitAll d o true cs) := by
  induction cs with
  | nil =>
    intro o
    exact ⟨.whole List.not_mem_nil, 0, [], rfl, nofun, .whole List.not_mem_nil⟩
  | cons c cs ih =>
    intro o
    obtain ⟨hfree, n, rest, hsplit, hrest, hrun⟩ := ih (o + c.utf8Size)
    by_cases hc : c = d
    · -- the run goes on: it ends the piece before only if it begins here
      subst hc
      obtain ⟨hends, hgoes⟩ := splitAll_delimiter c o cs
      rw [Nat.add_assoc, ← bytesOf_replicate_succ] at hrun
      have hwhole : c :: cs = List.replicate (n + 1) c ++ rest := by
        rw [hsplit, List.replicate_succ, List.cons_append]
      rw [hends, hgoes]
      refine ⟨?_, n + 1, rest, hwhole, hrest, hrun⟩
      rw [hwhole]
      exact .run hrest hrun
    · have hown : Divided d o (c :: cs) (⟨o, c :: (splitFrom d (o + c.utf8Size) false cs).1.text⟩ ::
          (splitFrom d (o + c.utf8Size) false cs).2) := .cons hc hfree
      rw [splitAll_other hc, splitAll_other hc]
      exact ⟨hown, 0, c :: cs, rfl, fun h => hc (Option.some.inj h), hown⟩

end

/-! ## One division only -/

section
variable {d : Char} {o : Nat} {text : List Char} {cuts : List Cut}

/-- Where the first run of a text is, and what comes behind it. -/
theorem cut_unique {n : Nat} {piece rest : List Char} (hfree : d ∉ piece) (hn : 0 < n)
    (hrest : rest.head? ≠ some d) :
    (piece ++ List.replicate n d ++ rest).takeWhile (· ≠ d) = piece ∧
      (piece ++ List.replicate n d ++ rest).dropWhile (· ≠ d) = List.replicate n d ++ rest ∧
        (List.replicate n d ++ rest).takeWhile (· = d) = List.replicate n d := by
  have hpiece : ∀ c ∈ piece, decide (c ≠ d) = true :=
    fun c hc => decide_eq_true (ne_of_mem_of_not_mem hc hfree)
  have hrun : ∀ c ∈ List.replicate n d, decide (c = d) = true :=
    fun c hc => decide_eq_true (List.eq_of_mem_replicate hc)
  obtain ⟨m, rfl⟩ := Nat.exists_eq_add_one_of_ne_zero hn.ne'
  have hbehind : rest.takeWhile (· = d) = [] := by
    cases rest with
    | nil => rfl
    | cons c cs => exact List.takeWhile_cons_of_neg fun h => hrest (congrArg some (of_decide_eq_true h))
  rw [List.append_assoc, List.takeWhile_append_of_pos hpiece, List.dropWhile_append_of_pos hpiece,
    List.takeWhile_append_of_pos hrun, hbehind]
  simp [List.replicate_succ]

/-- **A text is divided in one way only.** -/
theorem Divided.unique {others : List Cut} (h : Divided d o text cuts) (k : Divided d o text others) :
    cuts = others := by
  induction h generalizing others with
  | @whole o text hfree =>
    generalize htext : text = whole at k
    cases k with
    | whole => rfl
    | @cut _ n piece rest _ _ hn =>
      subst htext
      refine absurd ?_ hfree
      simp [hn.ne']
  | @cut o n piece rest cuts hfree hn hrest _ ih =>
    obtain ⟨hpiece, hdrop, hrun⟩ := cut_unique hfree hn hrest
    generalize htext : piece ++ List.replicate n d ++ rest = whole at k hpiece hdrop
    cases k with
    | whole hother =>
      subst htext
      refine absurd ?_ hother
      simp [hn.ne']
    | @cut _ m piece' rest' others hfree' hm hrest' hmore =>
      obtain ⟨hpiece', hdrop', hrun'⟩ := cut_unique hfree' hm hrest'
      obtain rfl := hpiece.symm.trans hpiece'
      have hbehind := hdrop.symm.trans hdrop'
      rw [hbehind, hrun'] at hrun
      rw [hrun] at hbehind hmore
      obtain rfl := List.append_cancel_left hbehind
      rw [ih hmore]

/-- **`splitRuns` divides a text, and there is no other division.** -/
theorem divided_iff : Divided d 0 text cuts ↔ cuts = splitRuns d text := by
  have hown : Divided d 0 text (splitRuns d text) := (divided_splitAll d text 0).1
  constructor
  · exact fun h => h.unique hown
  · rintro rfl
    exact hown

/-- A piece is a part of the text without the character, at its offset. -/
theorem Divided.piece (h : Divided d o text cuts) : ∀ p ∈ cuts, d ∉ p.text ∧
    ∃ before behind, text = before ++ p.text ++ behind ∧ p.offset = o + bytesOf before := by
  induction h with
  | whole hfree =>
    exact List.forall_mem_singleton.2 ⟨hfree, [], [], (List.append_nil _).symm, rfl⟩
  | @cut o n piece rest cuts hfree _ _ _ ih =>
    refine List.forall_mem_cons.2 ⟨⟨hfree, [], List.replicate n d ++ rest, by simp, rfl⟩, fun p hp => ?_⟩
    obtain ⟨hpfree, before, behind, hsplit, hoffset⟩ := ih p hp
    refine ⟨hpfree, piece ++ List.replicate n d ++ before, behind, ?_, ?_⟩
    · rw [hsplit]
      simp only [List.append_assoc]
    · rw [hoffset, bytesOf_append (piece ++ _), Nat.add_assoc]

end

/-! ## Line ends -/

/-- The same text with one character at the end of each line: a carriage return and the line feed
    behind it are one line feed, and every other character stays. -/
inductive LinesUnified : List Char → List Char → Prop
  | nil : LinesUnified [] []
  | pair {cs ds : List Char} : LinesUnified cs ds → LinesUnified ('\r' :: '\n' :: cs) ('\n' :: ds)
  | kept {c : Char} {cs ds : List Char} : ¬ ['\r', '\n'] <+: c :: cs → LinesUnified cs ds →
      LinesUnified (c :: cs) (c :: ds)

/-- **Lines are unified in one way only.** -/
theorem linesUnified_iff {cs ds : List Char} : LinesUnified cs ds ↔ ds = unifyLineEnds cs := by
  constructor
  · intro h
    induction h with
    | nil => rfl
    | pair _ ih => rw [unifyLineEnds, if_pos ⟨rfl, rfl⟩, ih]
    | @kept c cs ds hkept _ ih =>
      cases cs with
      | nil => rw [ih]; rfl
      | cons d cs =>
        rw [unifyLineEnds, if_neg, ih]
        rintro ⟨rfl, rfl⟩
        exact hkept (List.prefix_append ['\r', '\n'] cs)
  · rintro rfl
    fun_induction unifyLineEnds cs with
    | case1 => exact .nil
    | case2 c => exact .kept (fun h => absurd h.length_le (by simp)) .nil
    | case3 c d cs hpair ih =>
      obtain ⟨rfl, rfl⟩ := hpair
      exact .pair ih
    | case4 c d cs hpair ih =>
      refine .kept (fun h => hpair ?_) ih
      obtain ⟨hc, hrest⟩ := List.cons_prefix_cons.1 h
      exact ⟨hc.symm, (List.cons_prefix_cons.1 hrest).1.symm⟩

/-! ## Sections -/

namespace Corpus

/-- The case that a section is. -/
def case? : Except InvalidSection Case → Option Case
  | .ok c => some c
  | .error _ => none

/-- The error that a section is. -/
def error? : Except InvalidSection Case → Option InvalidSection
  | .ok _ => none
  | .error e => some e

/-- What a section of a text counts as: a case if it has at least three parts, and else an error
    at its first visible character. -/
inductive Becomes (whole : List Char) (s : Cut) : Except InvalidSection Case → Prop
  | case {name source expected : Cut} {others : List Cut} :
      splitRuns partDelimiter s.text = name :: source :: expected :: others →
      Becomes whole s (.ok ⟨String.ofList (Text.trim name.text), String.ofList (Text.trim source.text),
        String.ofList (Text.trim expected.text)⟩)
  | invalid {before blanks rest behind : List Char} {c : Char} :
      (splitRuns partDelimiter s.text).length < 3 →
      whole = before ++ s.text ++ behind → s.offset = bytesOf before →
      s.text = blanks ++ c :: rest → (∀ b ∈ blanks, Text.isBlank b = true) → Text.isBlank c = false →
      Becomes whole s (.error ⟨bytesOf (before ++ blanks)⟩)

/-- The sections of a text with something to see. -/
def sections (whole : List Char) : List Cut :=
  (splitRuns sectionDelimiter whole).filter fun s => !s.text.all Text.isBlank

theorem ofText_eq (text : String) :
    let outcomes := (sections (unifyLineEnds text.toList)).map caseOf
    ofText text = ⟨outcomes.filterMap case?, outcomes.filterMap error?⟩ := by
  have hfold (ss : List Cut) : ss.foldr add ⟨[], []⟩ =
      ⟨(ss.map caseOf).filterMap case?, (ss.map caseOf).filterMap error?⟩ := by
    induction ss with
    | nil => rfl
    | cons s ss ih =>
      rw [List.foldr_cons, ih, add, List.map_cons, List.filterMap_cons, List.filterMap_cons]
      cases caseOf s <;> rfl
  exact hfold _

/-- A text with something to see has a first visible character. -/
theorem exists_visible {cs : List Char} (h : ∃ c ∈ cs, Text.isBlank c = false) :
    ∃ c rest, cs = cs.takeWhile Text.isBlank ++ c :: rest ∧ Text.isBlank c = false := by
  have hsplit : cs.takeWhile Text.isBlank ++ cs.dropWhile Text.isBlank = cs :=
    List.takeWhile_append_dropWhile
  cases hrest : cs.dropWhile Text.isBlank with
  | nil =>
    obtain ⟨c, hc, hvisible⟩ := h
    rw [List.dropWhile_eq_nil_iff.1 hrest c hc] at hvisible
    cases hvisible
  | cons c rest =>
    have hhead := List.head?_dropWhile_not Text.isBlank cs
    rw [hrest] at hsplit hhead
    exact ⟨c, rest, hsplit.symm, by simpa using hhead⟩

theorem becomes_caseOf {whole : List Char} {s : Cut} (hs : s ∈ sections whole) :
    Becomes whole s (caseOf s) := by
  obtain ⟨hmem, hvisible⟩ := List.mem_filter.1 hs
  obtain ⟨-, before, behind, hwhole, hoffset⟩ := (divided_iff.2 rfl).piece s hmem
  rw [Nat.zero_add] at hoffset
  unfold caseOf
  dsimp only
  split
  · next hparts => exact .case hparts
  · next hfew =>
    have hlength : (splitRuns partDelimiter s.text).length < 3 := by
      rcases hparts : splitRuns partDelimiter s.text with _ | ⟨p, _ | ⟨q, _ | ⟨r, others⟩⟩⟩
      · exact Nat.succ_pos 2
      · exact Nat.succ_lt_succ (Nat.succ_pos 1)
      · exact Nat.lt_succ_self 2
      · exact absurd hparts (hfew p q r others)
    obtain ⟨c, rest, hsplit, hc⟩ := exists_visible (by simpa using hvisible)
    have hblanks : ∀ b ∈ s.text.takeWhile Text.isBlank, Text.isBlank b = true :=
      fun b hb => List.mem_takeWhile_imp hb
    have hoff : s.offset + byteCount (s.text.takeWhile Text.isBlank) =
        bytesOf (before ++ s.text.takeWhile Text.isBlank) := by
      rw [hoffset, byteCount_eq, bytesOf_append]
    rw [hoff]
    exact .invalid hlength hwhole hoffset hsplit hblanks hc

/-- **No section is lost.**  A text is made of the pieces that `splitRuns` gives and of the
    longest runs between them; each piece is free of the character and stands at its offset.  Of a
    corpus, in its only form with unified lines, every section with something to see becomes one
    case or one error, and both come in the order of the text. -/
theorem sections_kept :
    (∀ (d : Char) (text : List Char), Divided d 0 text (splitRuns d text) ∧
      ∀ p ∈ splitRuns d text, d ∉ p.text ∧
        ∃ before behind, text = before ++ p.text ++ behind ∧ p.offset = bytesOf before) ∧
    ∀ text : String, ∃ whole, (∀ cs, LinesUnified text.toList cs ↔ cs = whole) ∧
      ∃ outcomes, List.Forall₂ (Becomes whole) (sections whole) outcomes ∧
        (ofText text).cases = outcomes.filterMap case? ∧
        (ofText text).errors = outcomes.filterMap error? := by
  constructor
  · intro d text
    have hdivided : Divided d 0 text (splitRuns d text) := divided_iff.2 rfl
    refine ⟨hdivided, fun p hp => ?_⟩
    obtain ⟨hfree, before, behind, hsplit, hoffset⟩ := hdivided.piece p hp
    exact ⟨hfree, before, behind, hsplit, by rw [hoffset, Nat.zero_add]⟩
  · intro text
    refine ⟨unifyLineEnds text.toList, fun _ => linesUnified_iff,
      (sections (unifyLineEnds text.toList)).map caseOf, ?_, ?_, ?_⟩
    · exact List.forall₂_map_right_iff.2 (List.forall₂_same.2 fun s hs => becomes_caseOf hs)
    · rw [ofText_eq]
    · rw [ofText_eq]

end Corpus

end DanishProse

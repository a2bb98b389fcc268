/-
  How a word is cut into spellings.

  The first spelling of the list that fits is taken, so a text of several spellings is
  cut between them unless a longer one takes letters of what comes behind.

  * `Spelling.Overruns s t`: a spelling is longer than `s` and goes on into `t`;
  * `parts?_spellings`: a text of spellings none of which overruns the next one is cut
    where they meet;
  * `parts?_of_stuck`: a text that cannot be the start of a spelling, nor has one at its
    start, is not cut at all.
-/
import Mathlib.Data.List.Basic
import Mathlib.Data.List.Chain
import Mathlib.Tactic.Common
import DanishProse.Numeral

namespace DanishProse.Numeral

/-! ## The list of spellings -/

/-- A longer spelling stands before the ones that it begins with. -/
theorem spellings_pairwise : spellings.Pairwise fun s t => ¬ s.text <+: t.text := by
  decide +kernel

theorem text_ne_nil : ∀ s ∈ spellings, s.text ≠ [] := by
  decide +kernel

theorem text_ascii : ∀ s ∈ spellings, ∀ c ∈ s.text, c.toNat < 128 := by
  have hall : (spellings.all fun s => s.text.all fun c => c.toNat < 128) = true := by decide +kernel
  simpa using hall

/-! ## One spelling -/

section
variable {s : Spelling} {rest : List Char}

/-- A spelling is found at the start of a text if no longer one is there. -/
theorem firstSpelling?_append (hs : s ∈ spellings)
    (hlonger : ∀ u ∈ spellings, s.text.length < u.text.length → ¬ u.text <+: s.text ++ rest) :
    firstSpelling? (s.text ++ rest) = some s := by
  obtain ⟨before, behind, hsplit⟩ := List.append_of_mem hs
  have hpairwise := spellings_pairwise
  rw [hsplit, List.pairwise_append] at hpairwise
  obtain ⟨-, -, hbefore⟩ := hpairwise
  rw [firstSpelling?, List.find?_eq_some_iff_append]
  refine ⟨by simp, before, behind, hsplit, fun u hu => ?_⟩
  simp only [Bool.not_eq_true', List.isPrefixOf_iff_prefix, Bool.eq_false_iff, ne_eq]
  intro hprefix
  by_cases hlength : s.text.length < u.text.length
  · exact hlonger u (hsplit ▸ List.mem_append_left _ hu) hlength hprefix
  · -- a spelling before is none that begins this one
    have hshort : u.text <+: s.text :=
      List.prefix_of_prefix_length_le hprefix (List.prefix_append s.text rest) (Nat.not_lt.1 hlength)
    exact hbefore u hu s List.mem_cons_self hshort

theorem parts?_of_first {cs : List Char} (hfirst : firstSpelling? cs = some s) (hcs : cs = s.text ++ rest)
    (hne : s.text ≠ []) : parts? cs = (parts? rest).map (s.part.toList ++ ·) := by
  obtain ⟨c, text, htext⟩ := List.exists_cons_of_ne_nil hne
  subst hcs
  rw [htext, List.cons_append] at hfirst ⊢
  rw [parts?, hfirst]
  dsimp only
  have hrest : (text ++ rest).drop (s.text.length - 1) = rest := by
    rw [htext, List.length_cons, Nat.add_sub_cancel, List.drop_left]
  rw [hrest]
  cases parts? rest <;> rfl

/-- A spelling at the start of a text is cut off if no longer one is there. -/
theorem parts?_append (hs : s ∈ spellings)
    (hlonger : ∀ u ∈ spellings, s.text.length < u.text.length → ¬ u.text <+: s.text ++ rest) :
    parts? (s.text ++ rest) = (parts? rest).map (s.part.toList ++ ·) :=
  parts?_of_first (firstSpelling?_append hs hlonger) rfl (text_ne_nil s hs)

end

/-! ## Neighbours -/

/-- One of the texts begins with the other. -/
def Comparable (cs ds : List Char) : Prop :=
  cs <+: ds ∨ ds <+: cs

instance (cs ds : List Char) : Decidable (Comparable cs ds) :=
  inferInstanceAs (Decidable (_ ∨ _))

theorem Comparable.of_append {cs ds rest : List Char} (h : cs <+: ds ++ rest) : Comparable cs ds :=
  List.prefix_or_prefix_of_prefix h (List.prefix_append ds rest)

/-- A spelling is longer than `s` and may go on into `t`. -/
def Spelling.Overruns (s t : Spelling) : Prop :=
  ∃ u ∈ spellings, s.text <+: u.text ∧ s.text.length < u.text.length ∧
    Comparable (u.text.drop s.text.length) t.text

/-- The spellings that longer ones begin with, and how these go on. -/
def overlaps : List (List Char × List Char) :=
  [("to", "lv"), ("tre", "tten"), ("tre", "dive"), ("tre", "s"), ("fem", "ten"), ("seks", "ten"),
    ("ni", "tten"), ("hundred", "e"), ("tusind", "e"), ("million", "er"), ("milliard", "er")].map
      fun row => (row.1.toList, row.2.toList)

theorem mem_overlaps : ∀ s ∈ spellings, ∀ u ∈ spellings, s.text <+: u.text →
    s.text.length < u.text.length → (s.text, u.text.drop s.text.length) ∈ overlaps := by
  decide +kernel

theorem Spelling.Overruns.exists_tail {s t : Spelling} (h : s.Overruns t) (hs : s ∈ spellings) :
    ∃ tail, (s.text, tail) ∈ overlaps ∧ Comparable tail t.text := by
  obtain ⟨u, hu, hprefix, hlength, hcomparable⟩ := h
  exact ⟨_, mem_overlaps s hs u hu hprefix hlength, hcomparable⟩

theorem not_prefix_of_not_overruns {s t : Spelling} (h : ¬ s.Overruns t) (rest : List Char) :
    ∀ u ∈ spellings, s.text.length < u.text.length → ¬ u.text <+: s.text ++ (t.text ++ rest) := by
  intro u hu hlength hprefix
  have hstart : s.text <+: u.text :=
    List.prefix_of_prefix_length_le (List.prefix_append s.text _) hprefix (Nat.le_of_lt hlength)
  have hover : u.text.drop s.text.length <+: t.text ++ rest := by
    obtain ⟨tail, htail⟩ := hstart
    rw [← htail, List.drop_left]
    rw [← htail] at hprefix
    exact (List.prefix_append_right_inj s.text).1 hprefix
  exact h ⟨u, hu, hstart, hlength, Comparable.of_append hover⟩

/-- No longer spelling begins with this one. -/
def Spelling.Longest (s : Spelling) : Prop :=
  ∀ u ∈ spellings, s.text <+: u.text → ¬ s.text.length < u.text.length

instance (s : Spelling) : Decidable s.Longest :=
  inferInstanceAs (Decidable (∀ u ∈ spellings, _))

theorem Spelling.Longest.not_overruns {s : Spelling} (h : s.Longest) (t : Spelling) : ¬ s.Overruns t := by
  rintro ⟨u, hu, hprefix, hlength, -⟩
  exact h u hu hprefix hlength

/-- The longest spelling is cut off, whatever stands behind it. -/
theorem Spelling.Longest.parts?_append {s : Spelling} (h : s.Longest) (hs : s ∈ spellings) (rest : List Char) :
    parts? (s.text ++ rest) = (parts? rest).map (s.part.toList ++ ·) :=
  Numeral.parts?_append hs fun u hu hlength hprefix => h u hu
    (List.prefix_of_prefix_length_le (List.prefix_append s.text rest) hprefix (Nat.le_of_lt hlength)) hlength

/-- The text of spellings in a row. -/
def spelledText (ss : List Spelling) : List Char :=
  ss.flatMap Spelling.text

@[simp] theorem spelledText_nil : spelledText [] = [] := rfl

@[simp] theorem spelledText_cons (s : Spelling) (ss : List Spelling) :
    spelledText (s :: ss) = s.text ++ spelledText ss :=
  List.flatMap_cons

theorem spelledText_ascii {ss : List Spelling} (h : ∀ s ∈ ss, s ∈ spellings) :
    ∀ c ∈ spelledText ss, c.toNat < 128 := by
  intro c hc
  obtain ⟨s, hs, hcs⟩ := List.mem_flatMap.1 hc
  exact text_ascii s (h s hs) c hcs

/-- A spelling that does not overrun the next one is cut off. -/
theorem parts?_cons {s : Spelling} {ss : List Spelling} (hs : s ∈ spellings)
    (hnext : ∀ t ∈ ss.head?, ¬ s.Overruns t) :
    parts? (spelledText (s :: ss)) = (parts? (spelledText ss)).map (s.part.toList ++ ·) := by
  rw [spelledText_cons]
  refine parts?_append hs ?_
  cases ss with
  | nil =>
    intro u _ hlength hprefix
    rw [spelledText_nil, List.append_nil] at hprefix
    exact absurd hprefix.length_le (Nat.not_le.2 hlength)
  | cons t ss =>
    rw [spelledText_cons]
    exact not_prefix_of_not_overruns (hnext t rfl) _

/-- **A text is cut into its spellings, if none overruns the next one.** -/
theorem parts?_spellings {ss : List Spelling} (hs : ∀ s ∈ ss, s ∈ spellings)
    (hchain : ss.IsChain fun s t => ¬ s.Overruns t) :
    parts? (spelledText ss) = some (ss.filterMap Spelling.part) := by
  induction ss with
  | nil => simp [parts?]
  | cons s ss ih =>
    obtain ⟨hnext, hrest⟩ := List.isChain_cons.1 hchain
    obtain ⟨hmem, hmems⟩ := List.forall_mem_cons.1 hs
    rw [parts?_cons hmem hnext, ih hmems hrest]
    cases hpart : s.part <;> simp [hpart]

/-! ## Texts that are not cut -/

/-- No spelling begins like the text, as far as both go. -/
def Stuck (cs : List Char) : Prop :=
  ∀ u ∈ spellings, ¬ Comparable u.text cs

instance (cs : List Char) : Decidable (Stuck cs) :=
  inferInstanceAs (Decidable (∀ u ∈ spellings, _))

theorem parts?_of_none {cs : List Char} (hfirst : firstSpelling? cs = none) (hne : cs ≠ []) :
    parts? cs = none := by
  obtain ⟨c, cs, rfl⟩ := List.exists_cons_of_ne_nil hne
  rw [parts?, hfirst]

theorem Stuck.ne_nil {cs : List Char} (h : Stuck cs) : cs ≠ [] := by
  rintro rfl
  exact absurd h (by decide +kernel)

theorem parts?_of_stuck {cs : List Char} (h : Stuck cs) (rest : List Char) : parts? (cs ++ rest) = none := by
  refine parts?_of_none ?_ (List.append_ne_nil_of_left_ne_nil h.ne_nil rest)
  rw [firstSpelling?, List.find?_eq_none]
  intro u hu hprefix
  exact h u hu (Comparable.of_append (List.isPrefixOf_iff_prefix.1 hprefix))

end DanishProse.Numeral

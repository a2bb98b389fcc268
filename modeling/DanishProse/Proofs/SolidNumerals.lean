/-
  Numerals written as one solid word.

  Without fillers a spelling can take a letter of the next word: `hundred` and `tusind` are
  also the beginnings of `hundrede` and `tusinde`, and so an `e` behind them is lost to the
  word that it begins.

  * `Follows s t`: in a numeral `t` may stand right behind `s` (`Phrase.isChain_pieces`);
  * `Clips s t`: `s` is one of the two short words, and `t` begins with an `e`.  No other
    neighbours overrun each other (`Follows.clips`);
  * `decode_solid`: a solid numeral is read like the one with hyphens if no word clips the
    next one, and otherwise it is no numeral at all.
-/
import DanishProse.Proofs.Hyphenation

namespace DanishProse.Numeral

/-! ## Neighbours -/

/-- The words that a number below a hundred may begin with. -/
def smallWords : List Spelling :=
  addedWords unitWords ++ addedWords teenWords ++ addedWords tenWords

/-- One piece of a numeral may stand right behind another. -/
inductive Follows : Spelling → Spelling → Prop
  | unit {s t : Spelling} (hs : s ∈ addedWords unitWords)
      (ht : t ∈ .filler "og" :: multiplyingWords hundredWords ++ multiplyingWords scaleWords) : Follows s t
  | og {t : Spelling} (ht : t ∈ addedWords tenWords) : Follows (.filler "og") t
  | small {s t : Spelling} (hs : s ∈ addedWords teenWords ++ addedWords tenWords)
      (ht : t ∈ multiplyingWords scaleWords) : Follows s t
  | hundred {s t : Spelling} (hs : s ∈ multiplyingWords hundredWords)
      (ht : t ∈ smallWords ++ multiplyingWords scaleWords) : Follows s t
  | scale {s t : Spelling} (hs : s ∈ multiplyingWords scaleWords)
      (ht : t ∈ smallWords ++ multiplyingWords hundredWords ++ multiplyingWords scaleWords) : Follows s t

section
variable {rest : List Spelling}

theorem Small.head_mem (s : Small) : ∀ t ∈ (s.pieces ++ rest).head?, t ∈ smallWords := by
  intro t ht
  cases s <;> cases ht <;> simp [smallWords, Entry.added_mem]

theorem Small.isChain (s : Small) (hrest : rest.IsChain Follows)
    (hhead : ∀ t ∈ rest.head?, t ∈ multiplyingWords scaleWords) : (s.pieces ++ rest).IsChain Follows := by
  have hten (t : Entry tenWords) : (t.added :: rest).IsChain Follows :=
    List.isChain_cons.2 ⟨fun v hv => .small (by simp [t.added_mem]) (hhead v hv), hrest⟩
  cases s with
  | unit u =>
    refine List.isChain_cons.2 ⟨fun v hv => .unit u.added_mem ?_, hrest⟩
    simp [hhead v hv]
  | teen t =>
    refine List.isChain_cons.2 ⟨fun v hv => .small ?_ (hhead v hv), hrest⟩
    simp [t.added_mem]
  | ten t => exact hten t
  | unitTen u t =>
    refine List.isChain_cons.2 ⟨fun v hv => ?_, List.isChain_cons.2 ⟨fun v hv => ?_, hten t⟩⟩
    · cases hv
      exact .unit u.added_mem (by simp)
    · cases hv
      exact .og t.added_mem

theorem Coefficient.head_mem (c : Coefficient) :
    ∀ t ∈ (c.pieces ++ rest).head?, t ∈ smallWords ++ multiplyingWords hundredWords := by
  intro t ht
  cases c with
  | small s => exact List.mem_append_left _ (s.head_mem t ht)
  | hundred count h others =>
    cases count with
    | none =>
      cases ht
      exact List.mem_append_right _ h.multiplying_mem
    | some u =>
      cases ht
      simp [smallWords, u.added_mem]

theorem Coefficient.isChain (c : Coefficient) (hrest : rest.IsChain Follows)
    (hhead : ∀ t ∈ rest.head?, t ∈ multiplyingWords scaleWords) : (c.pieces ++ rest).IsChain Follows := by
  cases c with
  | small s => exact s.isChain hrest hhead
  | hundred count h others =>
    have hbehind : (h.multiplying :: (others.elim [] Small.pieces ++ rest)).IsChain Follows := by
      cases others with
      | none => exact List.isChain_cons.2 ⟨fun t ht => .hundred h.multiplying_mem
          (List.mem_append_right _ (hhead t ht)), hrest⟩
      | some s => exact List.isChain_cons.2 ⟨fun t ht => .hundred h.multiplying_mem
          (List.mem_append_left _ (s.head_mem t ht)), s.isChain hrest hhead⟩
    rw [pieces, List.append_assoc]
    cases count with
    | none => exact hbehind
    | some u =>
      refine List.isChain_cons.2 ⟨fun t ht => ?_, hbehind⟩
      cases ht
      exact .unit u.added_mem (by simp [h.multiplying_mem])

/-- What may stand at the beginning of a group, or of the last coefficient. -/
def Starts (rest : List Spelling) : Prop :=
  ∀ t ∈ rest.head?, t ∈ smallWords ++ multiplyingWords hundredWords ++ multiplyingWords scaleWords

theorem Group.isChain (g : Group) (hrest : rest.IsChain Follows) (hstarts : Starts rest) :
    (g.pieces ++ rest).IsChain Follows ∧ Starts (g.pieces ++ rest) := by
  have hscale : (g.scale.multiplying :: rest).IsChain Follows :=
    List.isChain_cons.2 ⟨fun t ht => .scale g.scale.multiplying_mem (hstarts t ht), hrest⟩
  rw [pieces, List.append_assoc]
  cases g.coefficient with
  | none =>
    refine ⟨hscale, fun t ht => ?_⟩
    cases ht
    exact List.mem_append_right _ g.scale.multiplying_mem
  | some c =>
    refine ⟨c.isChain hscale fun t ht => ?_, fun t ht => List.mem_append_left _ (c.head_mem t ht)⟩
    cases ht
    exact g.scale.multiplying_mem

/-- **The pieces of a numeral follow each other.** -/
theorem Phrase.isChain_pieces (n : Phrase) : n.pieces.IsChain Follows := by
  have hlast : (n.last.elim [] Coefficient.pieces).IsChain Follows ∧
      Starts (n.last.elim [] Coefficient.pieces) := by
    cases n.last with
    | none => exact ⟨.nil, fun t ht => by cases ht⟩
    | some c =>
      have hchain : (c.pieces ++ []).IsChain Follows := c.isChain .nil fun t ht => by cases ht
      have hhead : ∀ t ∈ (c.pieces ++ []).head?, t ∈ smallWords ++ multiplyingWords hundredWords :=
        c.head_mem
      rw [List.append_nil] at hchain hhead
      exact ⟨hchain, fun t ht => List.mem_append_left _ (hhead t ht)⟩
  have hgroups (groups : List Group) :
      (groups.flatMap Group.pieces ++ n.last.elim [] Coefficient.pieces).IsChain Follows ∧
        Starts (groups.flatMap Group.pieces ++ n.last.elim [] Coefficient.pieces) := by
    induction groups with
    | nil => exact hlast
    | cons g gs ih =>
      rw [List.flatMap_cons, List.append_assoc]
      exact g.isChain ih.1 ih.2
  exact (hgroups n.groups).1

end

/-! ## Clipped words -/

/-- The first word takes the letter `e` that the second one begins with. -/
def Clips (s t : Spelling) : Prop :=
  (s.text = "hundred".toList ∨ s.text = "tusind".toList) ∧ t.text.head? = some 'e'

instance (s t : Spelling) : Decidable (Clips s t) :=
  inferInstanceAs (Decidable (_ ∧ _))

/-- No word of the numeral clips the next one. -/
def Phrase.Clear (n : Phrase) : Prop :=
  n.pieces.IsChain fun s t => ¬ Clips s t

section
variable {s t : Spelling}

/-- A piece of a numeral overruns the next one only if it clips it. -/
theorem Follows.clips (h : Follows s t) (hs : s ∈ spellings) (hover : s.Overruns t) : Clips s t := by
  obtain ⟨tail, htail, hcomparable⟩ := hover.exists_tail hs
  cases h with
  | unit hs ht =>
    have htable : ∀ row ∈ overlaps, ∀ s ∈ addedWords unitWords, row.1 = s.text →
        ∀ t ∈ .filler "og" :: multiplyingWords hundredWords ++ multiplyingWords scaleWords,
          ¬ Comparable row.2 t.text := by decide +kernel
    exact absurd hcomparable (htable _ htail s hs rfl t ht)
  | og ht =>
    have htable : ∀ row ∈ overlaps, row.1 ≠ (Spelling.filler "og").text := by decide +kernel
    exact absurd rfl (htable _ htail)
  | small hs ht =>
    have htable : ∀ row ∈ overlaps, ∀ s ∈ addedWords teenWords ++ addedWords tenWords,
        row.1 ≠ s.text := by decide +kernel
    exact absurd rfl (htable _ htail s hs)
  | hundred hs ht =>
    have htable : ∀ row ∈ overlaps, ∀ s ∈ multiplyingWords hundredWords, row.1 = s.text →
        ∀ t ∈ smallWords ++ multiplyingWords scaleWords, Comparable row.2 t.text → Clips s t := by
      decide +kernel
    exact htable _ htail s hs rfl t ht hcomparable
  | scale hs ht =>
    have htable : ∀ row ∈ overlaps, ∀ s ∈ multiplyingWords scaleWords, row.1 = s.text →
        ∀ t ∈ smallWords ++ multiplyingWords hundredWords ++ multiplyingWords scaleWords,
          Comparable row.2 t.text → Clips s t := by decide +kernel
    exact htable _ htail s hs rfl t ht hcomparable

/-- What a clipped word leaves is not read, whatever stands behind it. -/
theorem Follows.parts?_tail (h : Follows s t) (he : s.text.head? = some 'e') (rest : List Char) :
    parts? (s.text.tail ++ (t.text ++ rest)) = none := by
  -- only `et` leaves a letter that begins another word, before `og`
  have hstuck : Stuck (s.text.tail ++ t.text) ∨ s.text.tail ++ t.text = "tog".toList := by
    cases h with
    | unit hs ht =>
      have htable : ∀ s ∈ addedWords unitWords,
          ∀ t ∈ .filler "og" :: multiplyingWords hundredWords ++ multiplyingWords scaleWords,
            s.text.head? = some 'e' →
              Stuck (s.text.tail ++ t.text) ∨ s.text.tail ++ t.text = "tog".toList := by decide +kernel
      exact htable s hs t ht he
    | og ht => exact absurd he (by decide +kernel)
    | small hs ht =>
      have htable : ∀ s ∈ addedWords teenWords ++ addedWords tenWords,
          ∀ t ∈ multiplyingWords scaleWords, s.text.head? = some 'e' →
            Stuck (s.text.tail ++ t.text) := by decide +kernel
      exact .inl (htable s hs t ht he)
    | hundred hs ht =>
      have htable : ∀ s ∈ multiplyingWords hundredWords, s.text.head? ≠ some 'e' := by decide +kernel
      exact absurd he (htable s hs)
    | scale hs ht =>
      have htable : ∀ s ∈ multiplyingWords scaleWords, s.text.head? ≠ some 'e' := by decide +kernel
      exact absurd he (htable s hs)
  rw [← List.append_assoc]
  rcases hstuck with hstuck | htog
  · exact parts?_of_stuck hstuck rest
  · have hto : Spelling.units "to" 2 ∈ spellings := by decide +kernel
    have hnext : ¬ (Spelling.units "to" 2).Overruns ⟨['g'], none⟩ := by
      have htable : ∀ row ∈ overlaps, ¬ Comparable row.2 ['g'] := by decide +kernel
      intro hover
      obtain ⟨tail, htail, hcomparable⟩ := hover.exists_tail hto
      exact htable _ htail hcomparable
    have hcut := parts?_append hto (not_prefix_of_not_overruns hnext rest)
    rw [parts?_of_stuck (by decide +kernel) rest, Option.map_none] at hcut
    rw [htog]
    exact hcut

/-- A piece that clips the next one is read as the longer word, and what it leaves is not read. -/
theorem Clips.parts?_eq_none (h : Clips s t) (hnext : t ∈ spellings) {ss : List Spelling}
    (hchain : (t :: ss).IsChain Follows) : parts? (spelledText (s :: t :: ss)) = none := by
  obtain ⟨hshort, he⟩ := h
  obtain ⟨long, hlong, hlongest, hlonger⟩ :
      ∃ long ∈ spellings, long.Longest ∧ long.text = s.text ++ ['e'] := by
    rcases hshort with hs | hs
    · exact ⟨.scale "hundrede" 100, by decide +kernel, by decide +kernel, by rw [hs]; decide +kernel⟩
    · exact ⟨.scale "tusinde" 1000, by decide +kernel, by decide +kernel, by rw [hs]; decide +kernel⟩
  have htail : parts? (t.text.tail ++ spelledText ss) = none := by
    cases ss with
    | nil =>
      have htable : ∀ t ∈ spellings, t.text.head? = some 'e' →
          firstSpelling? t.text.tail = none ∧ t.text.tail ≠ [] := by decide +kernel
      obtain ⟨hfirst, hne⟩ := htable t hnext he
      rw [spelledText_nil, List.append_nil]
      exact parts?_of_none hfirst hne
    | cons v ss =>
      rw [spelledText_cons]
      exact ((List.isChain_cons.1 hchain).1 v rfl).parts?_tail he _
  have htext : t.text = 'e' :: t.text.tail := List.eq_cons_of_mem_head? he
  have hcut := hlongest.parts?_append hlong (t.text.tail ++ spelledText ss)
  rw [htail, Option.map_none, hlonger, List.append_assoc] at hcut
  rw [spelledText_cons, spelledText_cons, htext]
  exact hcut

end

section
variable {ss : List Spelling}

theorem isChain_of_clear (hmem : ∀ s ∈ ss, s ∈ spellings) (hfollow : ss.IsChain Follows)
    (hclear : ss.IsChain fun s t => ¬ Clips s t) : ss.IsChain fun s t => ¬ s.Overruns t := by
  induction ss with
  | nil => exact .nil
  | cons s ss ih =>
    obtain ⟨hs, hss⟩ := List.forall_mem_cons.1 hmem
    obtain ⟨hnext, hrest⟩ := List.isChain_cons.1 hfollow
    obtain ⟨hhead, hlater⟩ := List.isChain_cons.1 hclear
    exact List.isChain_cons.2
      ⟨fun t ht hover => hhead t ht ((hnext t ht).clips hs hover), ih hss hrest hlater⟩

theorem parts?_of_not_clear (hmem : ∀ s ∈ ss, s ∈ spellings) (hfollow : ss.IsChain Follows)
    (hclear : ¬ ss.IsChain fun s t => ¬ Clips s t) : parts? (spelledText ss) = none := by
  induction ss with
  | nil => exact absurd .nil hclear
  | cons s ss ih =>
    obtain ⟨hs, hss⟩ := List.forall_mem_cons.1 hmem
    obtain ⟨hnext, hrest⟩ := List.isChain_cons.1 hfollow
    by_cases hhead : ∀ t ∈ ss.head?, ¬ Clips s t
    · have hlater : ¬ ss.IsChain fun s t => ¬ Clips s t :=
        fun h => hclear (List.isChain_cons.2 ⟨hhead, h⟩)
      rw [parts?_cons hs fun t ht hover => hhead t ht ((hnext t ht).clips hs hover), ih hss hrest hlater]
      rfl
    · push Not at hhead
      obtain ⟨t, ht, hclips⟩ := hhead
      obtain ⟨ss, rfl⟩ : ∃ rest, ss = t :: rest := List.head?_eq_some_iff.1 ht
      exact hclips.parts?_eq_none (hss t List.mem_cons_self) hrest

end

/-! ## Solid numerals -/

/-- **Solid numerals are read like those with hyphens, if no word clips the next one.**  A numeral in one
    solid word, in any letter case, has the value that it has with hyphens between its words; but if
    one of its words clips the next one, it is no numeral at all. -/
theorem decode_solid (n : Phrase) {word hyphenated : String}
    (hword : word.toLower.toList = spelledText n.pieces)
    (hhyphenated : hyphenated.toLower.toList = spelledText (n.words.intersperse (.filler "-"))) :
    (decode hyphenated).map Int64.toInt = some (n.value : Int) ∧
      (decode word = decode hyphenated ↔ n.Clear) ∧ (decode word = none ↔ ¬ n.Clear) := by
  have hvalue : decode hyphenated = some (Int64.ofNat n.value) :=
    (Filled.hyphens n.words).decode_eq (List.forall_mem_nil _) hhyphenated
  rw [hvalue, Option.map_some, n.toInt_value]
  refine ⟨rfl, ?_⟩
  by_cases hclear : n.Clear
  · have hchain := isChain_of_clear n.pieces_mem n.isChain_pieces hclear
    have hsolid : decode word = some (Int64.ofNat n.value) :=
      decode_of_spellings n n.pieces_mem hchain rfl hword
    simp [hsolid, hclear]
  · have hcut := parts?_of_not_clear n.pieces_mem n.isChain_pieces hclear
    have hnone : decode word = none := by
      rw [decode, lowercaseWord_of_spellings n.pieces_mem hword, hcut]
    simp [hnone, hclear]

/-- Two hundred thousand, three hundred and twenty-four. -/
def shortNumeral : Phrase where
  groups := [⟨some (.hundred (some ⟨"to", 2, by decide⟩) ⟨"hundred", 100, by decide⟩ none),
    ⟨"tusind", 1000, by decide⟩⟩]
  last := some (.hundred (some ⟨"tre", 3, by decide⟩) ⟨"hundred", 100, by decide⟩
    (some (.unitTen ⟨"fire", 4, by decide⟩ ⟨"tyve", 20, by decide⟩)))
  descending := List.pairwise_singleton _ _
  nonempty := .inl (List.cons_ne_nil _ _)

theorem decode_solid_short :
    "TohundredTusindtrehundredfireogtyve".toLower.toList = spelledText shortNumeral.pieces ∧
      "to-hundred-tusind-tre-hundred-fire-tyve".toLower.toList =
        spelledText (shortNumeral.words.intersperse (.filler "-")) ∧
      (decode "to-hundred-tusind-tre-hundred-fire-tyve").map Int64.toInt = some 200324 ∧
      decode "TohundredTusindtrehundredfireogtyve" = decode "to-hundred-tusind-tre-hundred-fire-tyve" := by
  have hword : "TohundredTusindtrehundredfireogtyve".toLower.toList = spelledText shortNumeral.pieces := by
    decide +kernel
  have hhyphenated : "to-hundred-tusind-tre-hundred-fire-tyve".toLower.toList =
      spelledText (shortNumeral.words.intersperse (.filler "-")) := by decide +kernel
  have hclear : shortNumeral.Clear := by
    unfold Phrase.Clear
    decide +kernel
  obtain ⟨hvalue, hsame, -⟩ := decode_solid shortNumeral hword hhyphenated
  exact ⟨hword, hhyphenated, hvalue, hsame.2 hclear⟩

/-- One thousand one hundred, with the short word for a thousand. -/
def clippedNumeral : Phrase where
  groups := [⟨some (.small (.unit ⟨"et", 1, by decide⟩)), ⟨"tusind", 1000, by decide⟩⟩]
  last := some (.hundred (some ⟨"et", 1, by decide⟩) ⟨"hundred", 100, by decide⟩ none)
  descending := List.pairwise_singleton _ _
  nonempty := .inl (List.cons_ne_nil _ _)

/-- A solid numeral need not be read like the one with hyphens: here `tusinde` takes the first letter
    of `et`. -/
theorem solid_clipped :
    "ettusindethundred".toLower.toList = spelledText clippedNumeral.pieces ∧
      "et-tusind-et-hundred".toLower.toList =
        spelledText (clippedNumeral.words.intersperse (.filler "-")) ∧
      decode "ettusindethundred" = none ∧ decode "et-tusind-et-hundred" = some 1100 :=
  ⟨by decide +kernel, by decide +kernel, by decide +kernel, by decide +kernel⟩

end DanishProse.Numeral

/-
  Numerals with fillers between their words.

  * `Filled ws ss`: the words `ws` with at least one filler between neighbours, and any
    number of them behind the last word;
  * `decode_of_spellings`: a word in any letter case, whose spellings stand for the parts of
    a numeral and do not overrun each other, is read as the value of the numeral;
  * `decode_filled`: with fillers a numeral is always read as its value.
-/
import DanishProse.Proofs.Reckoning
import DanishProse.Proofs.Segmentation

namespace DanishProse.Numeral

deriving instance DecidableEq for Spelling

/-! ## Letter case -/

theorem toLower_of_le {c : Char} (h : 128 ≤ c.toNat) : c.toLower = c := by
  have hnot : ¬ (c.val ≥ 'A'.val ∧ c.val ≤ 'Z'.val) := by
    rintro ⟨-, hle⟩
    have hle' : c.toNat ≤ 'Z'.toNat := UInt32.le_iff_toNat_le.1 hle
    exact absurd (Nat.le_trans h hle') (by decide)
  exact dif_neg hnot

/-- A word that is ASCII in lower case has no other lower case. -/
theorem lowercaseWord_eq {word : String} (h : ∀ c ∈ word.toLower.toList, c.toNat < 128) :
    Text.lowercaseWord word = word.toLower.toList := by
  have hmap : word.toLower.toList = word.toList.map Char.toLower := String.toList_map
  rw [hmap] at h ⊢
  rw [Text.lowercaseWord, ← List.flatMap_singleton' (List.map _ _), List.flatMap_map]
  refine List.flatMap_congr fun c hc => ?_
  have hlower : c.toLower.toNat < 128 := h _ (List.mem_map_of_mem hc)
  have hascii : c.toNat < 128 := by
    by_contra hlarge
    rw [toLower_of_le (Nat.not_lt.1 hlarge)] at hlower
    exact hlarge hlower
  rw [Text.lowercase, if_pos hascii]

theorem lowercaseWord_of_spellings {ss : List Spelling} (hss : ∀ s ∈ ss, s ∈ spellings) {word : String}
    (hword : word.toLower.toList = spelledText ss) : Text.lowercaseWord word = spelledText ss := by
  rw [← hword]
  exact lowercaseWord_eq (hword ▸ spelledText_ascii hss)

/-! ## The words of numerals are spellings -/

theorem addedWords_spelled :
    ∀ table ∈ [unitWords, teenWords, tenWords], ∀ s ∈ addedWords table, s ∈ spellings := by
  decide +kernel

theorem multiplyingWords_spelled :
    ∀ table ∈ [hundredWords, scaleWords], ∀ s ∈ multiplyingWords table, s ∈ spellings := by
  decide +kernel

theorem filler_mem : Spelling.filler "og" ∈ spellings := by
  decide +kernel

theorem Small.pieces_mem (s : Small) : ∀ p ∈ s.pieces, p ∈ spellings := by
  have hunit (u : Entry unitWords) := addedWords_spelled _ (by simp) _ u.added_mem
  have hteen (t : Entry teenWords) := addedWords_spelled _ (by simp) _ t.added_mem
  have hten (t : Entry tenWords) := addedWords_spelled _ (by simp) _ t.added_mem
  cases s with
  | unit u => simp [pieces, hunit]
  | teen t => simp [pieces, hteen]
  | ten t => simp [pieces, hten]
  | unitTen u t => simp [pieces, hunit, hten, filler_mem]

theorem Coefficient.pieces_mem (c : Coefficient) : ∀ p ∈ c.pieces, p ∈ spellings := by
  cases c with
  | small s => exact s.pieces_mem
  | hundred count h rest =>
    rw [pieces, List.forall_mem_append, List.forall_mem_cons]
    refine ⟨?_, multiplyingWords_spelled _ (by simp) _ h.multiplying_mem, ?_⟩
    · cases count with
      | none => simp
      | some u => simpa using addedWords_spelled _ (by simp) _ u.added_mem
    · cases rest with
      | none => simp
      | some s => exact s.pieces_mem

theorem optional_pieces_mem (c : Option Coefficient) : ∀ p ∈ c.elim [] Coefficient.pieces, p ∈ spellings := by
  cases c with
  | none => simp
  | some c => exact c.pieces_mem

theorem Phrase.pieces_mem (n : Phrase) : ∀ p ∈ n.pieces, p ∈ spellings := by
  rw [pieces, List.forall_mem_append]
  refine ⟨fun p hp => ?_, optional_pieces_mem n.last⟩
  obtain ⟨g, -, hpg⟩ := List.mem_flatMap.1 hp
  rcases List.mem_append.1 hpg with hp | hp
  · exact optional_pieces_mem g.coefficient p hp
  · rw [List.mem_singleton.1 hp]
    exact multiplyingWords_spelled _ (by simp) _ g.scale.multiplying_mem

/-! ## Reading a numeral -/

theorem decode_of_parts? {word : String} {ps : List Part} (h : parts? (Text.lowercaseWord word) = some ps)
    (hne : ps ≠ []) : decode word = some (value ps) := by
  obtain ⟨p, ps, rfl⟩ := List.exists_cons_of_ne_nil hne
  rw [decode, h]

theorem Phrase.parts_ne_nil (n : Phrase) : n.parts ≠ [] := by
  intro hnil
  have hvalue := value_parts n
  rw [hnil] at hvalue
  exact ofNat_ne_zero n.value_pos n.value_lt hvalue.symm

/-- A word whose spellings say what the words of a numeral say is read as its value. -/
theorem decode_of_spellings (n : Phrase) {ss : List Spelling} (hss : ∀ s ∈ ss, s ∈ spellings)
    (hchain : ss.IsChain fun s t => ¬ s.Overruns t) (hparts : ss.filterMap Spelling.part = n.parts)
    {word : String} (hword : word.toLower.toList = spelledText ss) :
    decode word = some (Int64.ofNat n.value) := by
  have hcut := parts?_spellings hss hchain
  rw [← lowercaseWord_of_spellings hss hword, hparts] at hcut
  rw [decode_of_parts? hcut n.parts_ne_nil, value_parts]

theorem Phrase.toInt_value (n : Phrase) : (Int64.ofNat n.value).toInt = n.value :=
  toInt_ofNat n.value_lt

/-! ## Fillers -/

/-- The fillers. -/
def fillers : List Spelling :=
  [.filler "-", .filler "og"]

/-- Words with fillers behind each: at least one between neighbours. -/
inductive Filled : List Spelling → List Spelling → Prop
  | nil : Filled [] []
  | cons {w : Spelling} {ws ss : List Spelling} (fs : List Spelling) (fill : ∀ f ∈ fs, f ∈ fillers)
      (gap : ws ≠ [] → fs ≠ []) (rest : Filled ws ss) : Filled (w :: ws) (w :: (fs ++ ss))

theorem filler_spelling : ∀ f ∈ fillers, f ∈ spellings := by
  decide +kernel

theorem filler_part : ∀ f ∈ fillers, f.part = none := by
  decide

theorem filler_longest : ∀ f ∈ fillers, f.Longest := by
  decide +kernel

theorem not_overruns_filler : ∀ s ∈ spellings, ∀ f ∈ fillers, ¬ s.Overruns f := by
  intro s hs f hf hover
  have htable : ∀ row ∈ overlaps, ∀ f ∈ fillers, ¬ Comparable row.2 f.text := by decide +kernel
  obtain ⟨tail, htail, hcomparable⟩ := hover.exists_tail hs
  exact htable _ htail f hf hcomparable

section
variable {fs ws ss : List Spelling}

theorem filterMap_fillers (h : ∀ f ∈ fs, f ∈ fillers) : fs.filterMap Spelling.part = [] := by
  rw [List.filterMap_eq_nil_iff]
  exact fun f hf => filler_part f (h f hf)

theorem isChain_fillers (h : ∀ f ∈ fs, f ∈ fillers) (hss : ss.IsChain fun s t => ¬ s.Overruns t) :
    (fs ++ ss).IsChain fun s t => ¬ s.Overruns t := by
  induction fs with
  | nil => exact hss
  | cons f fs ih =>
    obtain ⟨hf, hfs⟩ := List.forall_mem_cons.1 h
    exact List.isChain_cons.2 ⟨fun t _ => (filler_longest f hf).not_overruns t, ih hfs⟩

namespace Filled

theorem eq_nil (h : Filled [] ss) : ss = [] := by
  cases h
  rfl

theorem mem (h : Filled ws ss) (hws : ∀ w ∈ ws, w ∈ spellings) : ∀ s ∈ ss, s ∈ spellings := by
  induction h with
  | nil => exact hws
  | @cons w ws ss fs hfill _ _ ih =>
    obtain ⟨hw, hws⟩ := List.forall_mem_cons.1 hws
    exact List.forall_mem_cons.2 ⟨hw, List.forall_mem_append.2
      ⟨fun f hf => filler_spelling f (hfill f hf), ih hws⟩⟩

theorem filterMap_part (h : Filled ws ss) : ss.filterMap Spelling.part = ws.filterMap Spelling.part := by
  induction h with
  | nil => rfl
  | cons fs hfill _ _ ih =>
    simp only [List.filterMap_cons, List.filterMap_append, filterMap_fillers hfill, ih, List.nil_append]

/-- A filler stands between neighbours, or before one of them. -/
theorem isChain (h : Filled ws ss) (hws : ∀ w ∈ ws, w ∈ spellings) :
    ss.IsChain fun s t => ¬ s.Overruns t := by
  induction h with
  | nil => exact .nil
  | @cons w ws ss fs hfill hgap hrest ih =>
    obtain ⟨hw, hws⟩ := List.forall_mem_cons.1 hws
    refine List.isChain_cons.2 ⟨fun t ht => ?_, isChain_fillers hfill (ih hws)⟩
    cases fs with
    | nil =>
      -- without a filler behind it the word is the last one
      have hlast : ws = [] := by
        by_contra hne
        exact hgap hne rfl
      subst hlast
      rw [hrest.eq_nil] at ht
      cases ht
    | cons f fs =>
      cases ht
      exact not_overruns_filler w hw t (hfill t List.mem_cons_self)

/-- With one hyphen between neighbours. -/
theorem hyphens (ws : List Spelling) : Filled ws (ws.intersperse (.filler "-")) := by
  have hhyphen : ∀ f ∈ [Spelling.filler "-"], f ∈ fillers := by simp [fillers]
  induction ws with
  | nil => exact .nil
  | cons w ws ih =>
    cases ws with
    | nil => exact .cons [] (by simp) (by simp) .nil
    | cons v ws => exact .cons _ hhyphen (by simp) ih

end Filled

end

/-- A numeral with fillers is read as its value. -/
theorem Filled.decode_eq {n : Phrase} {fs ss : List Spelling} (h : Filled n.words ss)
    (hfs : ∀ f ∈ fs, f ∈ fillers) {word : String} (hword : word.toLower.toList = spelledText (fs ++ ss)) :
    decode word = some (Int64.ofNat n.value) := by
  have hwords : ∀ w ∈ n.words, w ∈ spellings := fun w hw => n.pieces_mem w (List.mem_of_mem_filter hw)
  refine decode_of_spellings n ?_ (isChain_fillers hfs (h.isChain hwords)) ?_ hword
  · exact List.forall_mem_append.2 ⟨fun f hf => filler_spelling f (hfs f hf), h.mem hwords⟩
  · rw [List.filterMap_append, filterMap_fillers hfs, h.filterMap_part, n.filterMap_words]
    rfl

/-- **Numerals with fillers are read exactly.**  With one or more fillers between its words, any number
    of them before and behind, and in any letter case, a numeral is read as its value. -/
theorem decode_filled (n : Phrase) {fs ss : List Spelling} (hfs : ∀ f ∈ fs, f ∈ fillers)
    (hss : Filled n.words ss) {word : String} (hword : word.toLower.toList = spelledText (fs ++ ss)) :
    (decode word).map Int64.toInt = some (n.value : Int) := by
  rw [hss.decode_eq hfs hword, Option.map_some, n.toInt_value]

/-- Six millions, a thousand, a hundred and thirty-five. -/
def mixedNumeral : Phrase where
  groups := [⟨some (.small (.unit ⟨"seks", 6, by decide⟩)), ⟨"millioner", 1000000, by decide⟩⟩,
    ⟨none, ⟨"tusinde", 1000, by decide⟩⟩]
  last := some (.hundred none ⟨"hundrede", 100, by decide⟩
    (some (.unitTen ⟨"fem", 5, by decide⟩ ⟨"tredive", 30, by decide⟩)))
  descending := by decide
  nonempty := .inl (List.cons_ne_nil _ _)

/-- The words of `mixedNumeral` with fillers of both kinds. -/
def mixedFilled : List Spelling :=
  [.units "seks" 6, .filler "-", .scale "millioner" 1000000, .filler "og", .scale "tusinde" 1000,
    .filler "-", .filler "-", .scale "hundrede" 100, .filler "og", .filler "og", .units "fem" 5,
    .filler "-", .units "tredive" 30, .filler "-"]

theorem decode_filled_mixed :
    (∀ f ∈ [.filler "-", .filler "og"], f ∈ fillers) ∧ Filled mixedNumeral.words mixedFilled ∧
      "-ogSeks-MILLIONERogtusinde--hundredeogogFem-tredive-".toLower.toList =
        spelledText ([.filler "-", .filler "og"] ++ mixedFilled) ∧
      (decode "-ogSeks-MILLIONERogtusinde--hundredeogogFem-tredive-").map Int64.toInt = some 6001135 := by
  have hfs : ∀ f ∈ [.filler "-", .filler "og"], f ∈ fillers := by simp [fillers]
  have hfilled : Filled mixedNumeral.words mixedFilled :=
    .cons [.filler "-"] (by simp [fillers]) (by simp) <|
    .cons [.filler "og"] (by simp [fillers]) (by simp) <|
    .cons [.filler "-", .filler "-"] (by simp [fillers]) (by simp) <|
    .cons [.filler "og", .filler "og"] (by simp [fillers]) (by simp) <|
    .cons [.filler "-"] (by simp [fillers]) (by simp) <|
    .cons [.filler "-"] (by simp [fillers]) (by simp) .nil
  have hword : "-ogSeks-MILLIONERogtusinde--hundredeogogFem-tredive-".toLower.toList =
      spelledText ([.filler "-", .filler "og"] ++ mixedFilled) := by decide +kernel
  exact ⟨hfs, hfilled, hword, decode_filled mixedNumeral hfs hfilled hword⟩

end DanishProse.Numeral

/-
  Documents are accepted if and only if they derive from the grammar.

  * Patterns and definitions are read as they derive, as sentences are;
  * the tokens of a text are such as readers want them (`ofSource_lexed`): there is
    one end of input, after all other tokens, and words are not articles;
  * `accepts_iff_derives`: the tokens of a text are read without a report if and
    only if those before the end of input derive from the grammar and its two lax
    forms, and what is read is what they derive from.
-/
import Mathlib.Data.List.Basic
import DanishProse.Proofs.Lexing
import DanishProse.Proofs.Recognition

namespace DanishProse

/-! ## Patterns -/

section
variable {ending : Location} {t : Token} {ts us vs rest : List Token} {ps : List PatternPart}
  {p : PatternPart}

theorem reads_parameter :
    Reader.Reads parameter ending ts p rest ↔
      ∃ name som typeName u, ts = name :: som :: typeName :: u :: rest ∧ name.kind = .word ∧
        som.reads "som" = true ∧ typeName.kind = .word ∧ u.kind = .parenClose ∧
        p = .parameter name.text typeName.text := by
  simp only [parameter, reads_bind, reads_pure, reads_expectKind .word (by simp),
    reads_expectKind .parenClose (by simp), reads_expectKeyword "som" (by decide)]
  constructor
  · rintro ⟨name, _, ⟨rfl, hname⟩, som, _, ⟨rfl, hsom⟩, typeName, _, ⟨rfl, htype⟩, u, _, ⟨rfl, hu⟩,
      rfl, rfl⟩
    exact ⟨name, som, typeName, u, rfl, hname, hsom, htype, hu, rfl⟩
  · rintro ⟨name, som, typeName, u, rfl, hname, hsom, htype, hu, rfl⟩
    exact ⟨name, _, ⟨rfl, hname⟩, som, _, ⟨rfl, hsom⟩, typeName, _, ⟨rfl, htype⟩, u, _, ⟨rfl, hu⟩,
      rfl, rfl⟩

theorem derives_of_patternParts (ending : Location) (ts : List Token) :
    (patternParts ending ts).reports = [] → ∃ us, ts = us ++ (patternParts ending ts).rest ∧
      PatternDerives (patternParts ending ts).value us := by
  fun_induction patternParts ending ts with
  | case1 => exact fun _ => ⟨[], rfl, .nil⟩
  | case2 => exact fun _ => ⟨[], rfl, .nil⟩
  | case3 t us ht hk more ih =>
    intro h
    obtain ⟨vs, hvs, hps⟩ := ih h
    exact ⟨t :: vs, congrArg (t :: ·) hvs, .cons (.word hk (Bool.eq_false_iff.2 ht)) hps⟩
  | case4 t us ht hw hk p more ih =>
    intro h
    obtain ⟨hp, hmore⟩ := List.append_eq_nil_iff.1 h
    obtain ⟨name, som, typeName, u, hus, hname, hsom, htype, hu, hval⟩ :=
      reads_parameter.1 ⟨hp, rfl, rfl⟩
    obtain ⟨vs, hvs, hps⟩ := ih hmore
    have hpart : PatternPart.Derives p.value [t, name, som, typeName, u] :=
      hval ▸ .parameter hk hname hsom htype hu
    refine ⟨t :: name :: som :: typeName :: u :: vs, ?_, .cons hpart hps⟩
    exact congrArg (t :: ·) (hus.trans (congrArg (name :: som :: typeName :: u :: ·) hvs))
  | case5 => exact fun _ => ⟨[], rfl, .nil⟩

theorem reads_patternParts_word (ht : t.reads "tilbagegiver" = false) (hk : t.kind = .word)
    (h : Reader.Reads patternParts ending ts ps rest) :
    Reader.Reads patternParts ending (t :: ts) (.word t.text :: ps) rest := by
  obtain ⟨h, rfl, rfl⟩ := h
  unfold Reader.Reads
  rw [patternParts, if_neg (Bool.eq_false_iff.1 ht), if_pos hk]
  exact ⟨h, rfl, rfl⟩

theorem reads_patternParts_parameter (ht : t.reads "tilbagegiver" = false) (hk : t.kind = .parenOpen)
    (hp : Reader.Reads parameter ending ts p us) (h : Reader.Reads patternParts ending us ps rest) :
    Reader.Reads patternParts ending (t :: ts) (p :: ps) rest := by
  obtain ⟨hp, rfl, rfl⟩ := hp
  obtain ⟨h, rfl, rfl⟩ := h
  unfold Reader.Reads
  rw [patternParts, if_neg (Bool.eq_false_iff.1 ht), if_neg (by simp [hk]), if_pos hk]
  exact ⟨List.append_eq_nil_iff.2 ⟨hp, h⟩, rfl, rfl⟩

theorem reads_of_pattern_derives (h : PatternDerives ps us) (hl : ∀ t ∈ us, t.Lexed)
    (ht : t.reads "tilbagegiver" = true) :
    Reader.Reads patternParts ending (us ++ t :: ts) ps (t :: ts) := by
  induction h with
  | nil =>
    unfold Reader.Reads
    rw [List.nil_append, patternParts, if_pos ht]
    exact ⟨rfl, rfl, rfl⟩
  | cons hp hps ih =>
    obtain ⟨hl, hls⟩ := List.forall_mem_append.1 hl
    specialize ih hls
    cases hp with
    | word hk hr => exact reads_patternParts_word hr hk ih
    | @parameter t name som typeName u hk hname hsom htype hu =>
      have hopen : t.reads "tilbagegiver" = false := by
        rw [Token.reads, (hl t List.mem_cons_self).parenOpen hk]
        decide
      exact reads_patternParts_parameter hopen hk
        (reads_parameter.2 ⟨_, _, _, _, rfl, hname, hsom, htype, hu, rfl⟩) ih

end

/-! ## Definitions -/

section
variable {ending : Location} {t u : Token} {ts us vs rest : List Token} {d : Definition}
  {ds : List Definition}

theorem derives_of_reads_definition (ht : t.reads "offentlig" = true) (hu : u.reads "funktion" = true)
    (h : Reader.Reads definition ending ts d rest) :
    ∃ us, t :: u :: ts = us ++ rest ∧ d.Derives true us := by
  simp only [definition, reads_bind, reads_pure, reads_nextLocation,
    reads_expectKind .word (by simp), reads_expectKind .dot (by simp),
    reads_expectKeyword "tilbagegiver" (by decide)] at h
  obtain ⟨_, ts', ⟨rfl, hts⟩, ps, _, ⟨hps, rfl, hrest⟩, give, _, ⟨rfl, hgive⟩, name, _, ⟨rfl, hname⟩,
    dot, _, ⟨rfl, hdot⟩, body, _, hbody, rfl, rfl⟩ := h
  obtain ⟨us, hus, hpattern⟩ := derives_of_patternParts ending ts' hps
  obtain ⟨vs, rfl, hblock⟩ := derives_of_reads_block hbody
  rw [hrest] at hus
  have hlocation : (nextToken ending ts).location = firstLocation (us ++ [give]) := by
    rw [firstLocation_eq (by simp) ending (name :: dot :: (vs ++ rest)), ← hts, hus]
    simp
  refine ⟨t :: u :: (us ++ give :: name :: dot :: vs), ?_, ?_⟩
  · rw [← hts, hus]
    simp
  · rw [hlocation]
    exact .mk ht hu hpattern hgive hname hdot hblock

theorem reads_of_definition_derives (h : d.Derives true us) (hl : ∀ t ∈ us, t.Lexed) :
    ∃ t u vs, us = t :: u :: vs ∧ t.reads "offentlig" = true ∧ u.reads "funktion" = true ∧
      ∀ ending ws, Reader.Reads definition ending (vs ++ ws) d ws := by
  obtain @⟨t, u, give, name, dot, ps, body, ts, us, ht, hu, hps, hgive, hname, hdot, hbody⟩ := h
  refine ⟨t, u, _, rfl, ht, hu, fun ending ws => ?_⟩
  simp only [List.forall_mem_cons, List.forall_mem_append] at hl
  simp only [definition, reads_bind, reads_pure, reads_nextLocation,
    reads_expectKind .word (by simp), reads_expectKind .dot (by simp),
    reads_expectKeyword "tilbagegiver" (by decide)]
  have hlocation : firstLocation (ts ++ [give]) =
      (nextToken ending (ts ++ give :: name :: dot :: us ++ ws)).location := by
    rw [firstLocation_eq (by simp) ending (name :: dot :: (us ++ ws))]
    simp
  rw [List.append_assoc] at hlocation ⊢
  exact ⟨_, _, ⟨rfl, rfl⟩, ps, _, reads_of_pattern_derives hps hl.2.2.1 hgive, give, _, ⟨rfl, hgive⟩,
    name, _, ⟨rfl, hname⟩, dot, _, ⟨rfl, hdot⟩, body, ws,
    reads_of_block_derives hbody hl.2.2.2.2.2.2, by rw [hlocation], rfl⟩

theorem DefinitionsDerive.step {P : Prop} (hd : ∃ ws, ts = ws ++ us ∧ d.Derives true ws)
    (hds : ∃ ws, us = ws ++ rest ∧ DefinitionsDerive true ds ws ∧ P) :
    ∃ ws, ts = ws ++ rest ∧ DefinitionsDerive true (d :: ds) ws ∧ P := by
  obtain ⟨ws, rfl, hd⟩ := hd
  obtain ⟨xs, rfl, hds, hP⟩ := hds
  exact ⟨ws ++ xs, (List.append_assoc _ _ _).symm, .cons hd hds, hP⟩

theorem DefinitionsDerive.skipped {P : Prop} (ht : t.reads "offentlig" = true)
    (hu : nextReads "funktion" ts = false)
    (hds : ∃ ws, ts = ws ++ rest ∧ DefinitionsDerive true ds ws ∧ P) :
    ∃ ws, t :: ts = ws ++ rest ∧ DefinitionsDerive true ds ws ∧ P := by
  obtain ⟨ws, rfl, hds, hP⟩ := hds
  refine ⟨t :: ws, rfl, .skip rfl ht ?_ hds, hP⟩
  cases ws with
  | nil => rfl
  | cons w ws => exact hu

/-- **What a reading of definitions takes, it takes from a derivation.** -/
theorem derives_of_readDefinitions (ending : Location) (ts : List Token) :
    (readDefinitions ending ts).reports = [] → ∃ us, ts = us ++ (readDefinitions ending ts).rest ∧
      DefinitionsDerive true (readDefinitions ending ts).value us ∧
        ∀ t ∈ (readDefinitions ending ts).rest.head?, t.kind = .endOfInput := by
  fun_induction readDefinitions ending ts with
  | case1 => exact fun _ => ⟨[], rfl, .nil, by simp⟩
  | case2 t us hk =>
    refine fun _ => ⟨[], rfl, .nil, ?_⟩
    rintro _ ⟨⟩
    exact hk
  | case3 t us _ reports hfunktion d hempty more ih =>
    intro h
    obtain ⟨ho, hd⟩ := List.append_eq_nil_iff.1 (List.isEmpty_iff.1 hempty)
    obtain ⟨-, ht⟩ := (reads_expectKeyword "offentlig" (by decide)).1 ⟨ho, rfl, rfl⟩
    obtain ⟨u, hu, hus⟩ := nextReads_iff.1 hfunktion
    have hderives := derives_of_reads_definition ht hu ⟨hd, rfl, rfl⟩
    rw [← hus] at hderives
    exact DefinitionsDerive.step hderives (ih h)
  | case4 t us _ reports _ d hne => exact fun h => absurd (List.isEmpty_iff.2 h) hne
  | case5 t us _ reports hfunktion hempty more ih =>
    intro h
    obtain ⟨-, ht⟩ := (reads_expectKeyword "offentlig" (by decide)).1 ⟨List.isEmpty_iff.1 hempty, rfl, rfl⟩
    exact DefinitionsDerive.skipped ht (Bool.eq_false_iff.2 hfunktion) (ih h)
  | case6 t us _ reports _ hne => exact fun h => absurd (List.isEmpty_iff.2 h) hne

theorem reports_expectKeyword {keyword : String} (ht : t.reads keyword = true) :
    (expectKeyword keyword ending (t :: ts)).reports = [] :=
  if_pos ht

theorem reads_readDefinitions_cons (ht : t.reads "offentlig" = true) (hk : t.kind ≠ .endOfInput)
    (hu : u.reads "funktion" = true) (hd : Reader.Reads definition ending ts d us)
    (h : Reader.Reads readDefinitions ending us ds rest) :
    Reader.Reads readDefinitions ending (t :: u :: ts) (d :: ds) rest := by
  obtain ⟨hd, rfl, rfl⟩ := hd
  obtain ⟨h, rfl, rfl⟩ := h
  have hf : nextReads "funktion" (u :: ts) = true := hu
  have hempty : ((expectKeyword "offentlig" ending (t :: u :: ts)).reports ++
      (definition ending (u :: ts).tail).reports).isEmpty = true := by
    rw [reports_expectKeyword ht, List.nil_append]
    exact List.isEmpty_iff.2 hd
  unfold Reader.Reads
  rw [readDefinitions, if_neg hk]
  simp only [hf, hempty, if_true]
  exact ⟨h, rfl, rfl⟩

theorem reads_readDefinitions_skip (ht : t.reads "offentlig" = true) (hk : t.kind ≠ .endOfInput)
    (hf : nextReads "funktion" ts = false) (h : Reader.Reads readDefinitions ending ts ds rest) :
    Reader.Reads readDefinitions ending (t :: ts) ds rest := by
  obtain ⟨h, rfl, rfl⟩ := h
  have hempty : (expectKeyword "offentlig" ending (t :: ts)).reports.isEmpty = true :=
    List.isEmpty_iff.2 (reports_expectKeyword ht)
  unfold Reader.Reads
  rw [readDefinitions, if_neg hk]
  simp only [hf, hempty, if_true, Bool.false_eq_true, if_false, and_true]
  exact h

theorem reads_of_definitions_derive (h : DefinitionsDerive true ds us) (hl : ∀ t ∈ us, t.Lexed)
    (hk : t.kind = .endOfInput) (ht : t.text = "") :
    Reader.Reads readDefinitions ending (us ++ [t]) ds [t] := by
  induction h with
  | nil =>
    unfold Reader.Reads
    rw [List.nil_append, readDefinitions, if_pos hk]
    exact ⟨rfl, rfl, rfl⟩
  | cons hd hds ih =>
    obtain ⟨hl, hls⟩ := List.forall_mem_append.1 hl
    obtain ⟨v, u, ts, rfl, hv, hu, hreads⟩ := reads_of_definition_derives hd hl
    rw [List.append_assoc]
    exact reads_readDefinitions_cons hv ((hl v List.mem_cons_self).kind_ne hv (by decide)) hu
      (hreads ending _) (ih hls)
  | @skip v ds us _ hv hf hds ih =>
    obtain ⟨hl, hls⟩ := List.forall_mem_cons.1 hl
    refine reads_readDefinitions_skip hv (hl.kind_ne hv (by decide)) ?_ (ih hls)
    cases us with
    | nil => exact (congrArg (Text.sameWord · "funktion") ht).trans (by decide)
    | cons u us => exact hf

end

/-! ## The tokens of a text -/

/-- The tokens before the end of input. -/
def Scanned.beforeEnd (s : Scanned) : List Token :=
  s.tokens.takeWhile (·.kind ≠ .endOfInput)

theorem ofSource_lexed (source : String) :
    ∃ ts last, (Token.ofSource source).tokens = ts ++ [⟨.endOfInput, "", last⟩] ∧
      ∀ t ∈ ts, t.Lexed ∧ t.kind ≠ .endOfInput ∧ t.kind ≠ .comment := by
  refine forall_ofSource (fun l c cs kind hrole hcomment => ?_) source
  have hne : kind ≠ .endOfInput := by
    rintro rfl
    exact role_ne_endOfInput hrole
  refine ⟨⟨fun he => absurd he hne, ?_, ?_⟩, hne, hcomment⟩
  · rintro rfl
    exact text_of_role_parenOpen hrole
  · rintro rfl
    have hword := isWord_of_role hrole
    exact ⟨hword.ne_numeral (by decide +kernel), hword.ne_numeral (by decide +kernel)⟩

/-- The tokens of a text are those before the end of input, and the end of input. -/
theorem tokens_ofSource (source : String) :
    ∃ last, (Token.ofSource source).tokens =
      (Token.ofSource source).beforeEnd ++ [⟨.endOfInput, "", last⟩] ∧
        ∀ t ∈ (Token.ofSource source).beforeEnd, t.Lexed ∧ t.kind ≠ .endOfInput ∧ t.kind ≠ .comment := by
  obtain ⟨ts, last, htokens, hl⟩ := ofSource_lexed source
  have hbefore : (Token.ofSource source).beforeEnd = ts := by
    rw [Scanned.beforeEnd, htokens, List.takeWhile_append_of_pos (fun t ht => by simpa using (hl t ht).2.1)]
    simp
  rw [hbefore]
  exact ⟨last, htokens, hl⟩

theorem beforeEnd_eq (source : String) : (Token.ofSource source).beforeEnd =
    ((scan .start source.toList).filterMap Piece.token?).filter (·.kind ≠ .comment) := by
  obtain ⟨last, htokens, -⟩ := tokens_ofSource source
  have hsplit : (Token.ofSource source).tokens =
      ((scan .start source.toList).filterMap Piece.token?).filter (·.kind ≠ .comment) ++
        [⟨.endOfInput, "", Location.start.after source.toList⟩] := by
    simp [Token.ofSource, Token.allOfSource]
  exact List.append_inj_left' (htokens.symm.trans hsplit) rfl

/-- A property of the tokens that are cut off the front of a text is one of all tokens before its
    end. -/
theorem forall_beforeEnd {P : Token → Prop}
    (h : ∀ (l : Location) (c : Char) (cs : List Char) (kind : TokenKind),
      role c (cs.take (reach c cs)) = .token kind → kind ≠ .comment →
        P ⟨kind, String.ofList (c :: cs.take (reach c cs)), l⟩) (source : String) :
    ∀ t ∈ (Token.ofSource source).beforeEnd, P t := by
  obtain ⟨ts, last, hsplit, hts⟩ := forall_ofSource h source
  obtain ⟨last', htokens, -⟩ := tokens_ofSource source
  rw [List.append_inj_left' (htokens.symm.trans hsplit) rfl]
  exact hts

section
variable {ts : List Token} {d : Definition} {ds : List Definition}

theorem Definition.Derives.ends {lax : Bool} (h : d.Derives lax ts) :
    ∃ us dot, ts = us ++ [dot] ∧ dot.kind = .dot := by
  obtain @⟨t, u, give, name, dot, ps, body, ts, _, -, -, -, -, -, -,
    @⟨v, dot', w, dot'', _, vs, -, -, -, -, hdot⟩⟩ := h
  exact ⟨t :: u :: (ts ++ give :: name :: dot :: v :: dot' :: (vs ++ [w])), dot'', by simp, hdot⟩

/-- A derivation does not end with the end of input. -/
theorem DefinitionsDerive.last_ne {lax : Bool} (h : DefinitionsDerive lax ds ts)
    (hl : ∀ t ∈ ts, t.Lexed) : ∀ t ∈ ts.getLast?, t.kind ≠ .endOfInput := by
  induction h with
  | nil => exact nofun
  | @cons d ds us vs hd hds ih =>
    intro t ht
    rcases vs.eq_nil_or_concat' with rfl | ⟨vs, v, rfl⟩
    · obtain ⟨us, dot, rfl, hdot⟩ := hd.ends
      obtain rfl : dot = t := by simpa using ht
      simp [hdot]
    · exact ih (List.forall_mem_append.1 hl).2 t (by simpa using ht)
  | @skip v ds us _ hv _ hds ih =>
    intro t ht
    rcases us.eq_nil_or_concat' with rfl | ⟨us, u, rfl⟩
    · obtain rfl : v = t := by simpa using ht
      exact (hl v List.mem_cons_self).kind_ne hv (by decide)
    · rw [← List.cons_append, List.getLast?_concat] at ht
      exact ih (List.forall_mem_cons.1 hl).2 t (by rwa [List.getLast?_concat])

end

/-- Tokens up to an end of input are all tokens before the only one. -/
theorem tokens_of_rest {ts us rest : List Token} {e : Token} (h : ts ++ [e] = us ++ rest)
    (hts : ∀ t ∈ ts, t.kind ≠ .endOfInput) (hrest : ∀ t ∈ rest.head?, t.kind = .endOfInput)
    (hus : ∀ t ∈ us.getLast?, t.kind ≠ .endOfInput) (he : e.kind = .endOfInput) : us = ts := by
  cases rest with
  | nil =>
    rw [List.append_nil] at h
    exact absurd he (hus e (by simp [← h]))
  | cons r rs =>
    rcases rs.eq_nil_or_concat' with rfl | ⟨rs, x, rfl⟩
    · exact (List.append_inj_left' h rfl).symm
    · have hts' : ts = us ++ r :: rs :=
        (List.append_inj' (show ts ++ [e] = (us ++ r :: rs) ++ [x] by simpa using h) rfl).1
      exact absurd (hrest r rfl) (hts r (by simp [hts']))

/-- **What the tokens of a text are read as without a report is what those before
    the end of input derive from.** -/
theorem ofTokens_iff_derives (source : String) (d : Document) :
    Document.ofTokens true (Token.ofSource source).tokens = (d, []) ↔
      d.Derives true (Token.ofSource source).beforeEnd := by
  obtain ⟨last, htokens, hl⟩ := tokens_ofSource source
  generalize (Token.ofSource source).beforeEnd = ts at htokens hl
  have hfilter : (Token.ofSource source).tokens.filter (·.kind ≠ .comment) =
      ts ++ [⟨.endOfInput, "", last⟩] := by
    rw [htokens, List.filter_eq_self]
    simp only [List.forall_mem_append, List.forall_mem_singleton]
    exact ⟨fun t ht => by simpa using (hl t ht).2.2, by simp⟩
  rw [Document.ofTokens, if_pos rfl, hfilter]
  generalize lastLocation (Token.ofSource source).tokens = ending
  constructor
  · intro h
    obtain ⟨rfl, hreports⟩ := Prod.mk.injEq .. ▸ h
    obtain ⟨us, hus, hds, hend⟩ := derives_of_readDefinitions ending _ hreports
    have hlexed : ∀ t ∈ us, t.Lexed := by
      intro t ht
      rcases List.mem_append.1 (hus ▸ List.mem_append_left _ ht) with hmem | hmem
      · exact (hl t hmem).1
      · rw [List.mem_singleton.1 hmem]
        exact ⟨fun _ => rfl, nofun, nofun⟩
    obtain rfl := tokens_of_rest hus (fun t ht => (hl t ht).2.1) hend (hds.last_ne hlexed) rfl
    exact hds
  · intro h
    obtain ⟨hreports, hvalue, -⟩ : Reader.Reads readDefinitions ending (ts ++ [⟨.endOfInput, "", last⟩])
        d.definitions [⟨.endOfInput, "", last⟩] :=
      reads_of_definitions_derive h (fun t ht => (hl t ht).1) rfl rfl
    dsimp only
    rw [hreports, hvalue]

/-! ## The grammar and its lax forms -/

theorem ArticleDerives.lax {ts : List Token} (h : ArticleDerives false ts) : ArticleDerives true ts := by
  cases h with
  | none => exact .none
  | en h => exact .en h
  | et h => exact .et h
  | both h => cases h

mutual

theorem Sentence.Derives.lax : ∀ {s : Sentence} {ts : List Token}, s.Derives false ts → s.Derives true ts
  | _, _, .declare hlad hname hbe ha htype hdot => .declare hlad hname hbe ha.lax htype hdot
  | _, _, .when ht hc hb => .when ht hc hb.lax
  | _, _, .whenElse ht hc hb hu hdot hb₂ => .whenElse ht hc hb.lax hu hdot hb₂.lax
  | _, _, .loop ht hc hb => .loop ht hc hb.lax
  | _, _, .giveBack ht hc => .giveBack ht hc
  | _, _, .express hfirst hc => .express hfirst hc

theorem SentencesDerive.lax : ∀ {ss : List Sentence} {ts : List Token},
    SentencesDerive false ss ts → SentencesDerive true ss ts
  | _, _, .nil => .nil
  | _, _, .cons hs hss hw => .cons hs.lax hss.lax hw

theorem BlockDerives.lax : ∀ {ss : List Sentence} {ts : List Token},
    BlockDerives false ss ts → BlockDerives true ss ts
  | _, _, .mk ht hdot hss hu hdot' => .mk ht hdot hss.lax hu hdot'

end

/-- The grammar derives nothing that it does not derive with the lax forms. -/
theorem Document.Derives.lax {d : Document} {ts : List Token} (h : d.Derives false ts) :
    d.Derives true ts := by
  unfold Document.Derives at *
  generalize d.definitions = ds at *
  induction h with
  | nil => exact .nil
  | cons hd _ ih =>
    obtain ⟨ht, hu, hps, hgive, hname, hdot, hbody⟩ := hd
    exact .cons (.mk ht hu hps hgive hname hdot hbody.lax) ih
  | skip h => cases h

/-- **Tokens are accepted if and only if they derive from the grammar with its two
    lax forms**, which derive all that the grammar derives.  There is one document
    that they derive from, the one that is read. -/
theorem accepts_iff_derives (source : String) (h : (Token.ofSource source).reports = []) :
    ((Analysis.ofSource source).readingReports = [] ↔
        ∃ d : Document, d.Derives true (Token.ofSource source).beforeEnd) ∧
      (∀ d : Document, d.Derives true (Token.ofSource source).beforeEnd →
        (Analysis.ofSource source).document = d) ∧
      ∀ d : Document, d.Derives false (Token.ofSource source).beforeEnd →
        (Analysis.ofSource source).readingReports = [] := by
  have hread : (Analysis.ofSource source).readingReports =
      (Document.ofTokens true (Token.ofSource source).tokens).2 := by
    simp [Analysis.ofSource, h]
  have hdocument : (Analysis.ofSource source).document =
      (Document.ofTokens true (Token.ofSource source).tokens).1 := by
    simp [Analysis.ofSource, h]
  have hderives (d : Document) := ofTokens_iff_derives source d
  rw [hread, hdocument]
  refine ⟨⟨fun hr => ⟨_, (hderives _).1 (Prod.ext rfl hr)⟩, fun ⟨d, hd⟩ => ?_⟩, fun d hd => ?_,
    fun d hd => ?_⟩
  · rw [(hderives d).2 hd]
  · rw [(hderives d).2 hd]
  · rw [(hderives d).2 hd.lax]

theorem accepts_empty_function :
    (Token.ofSource "Offentlig funktion f tilbagegiver heltal. Goddag. Farvel.").reports = [] ∧
      ∃ d : Document, d.Derives true
        (Token.ofSource "Offentlig funktion f tilbagegiver heltal. Goddag. Farvel.").beforeEnd := by
  have h : (Token.ofSource "Offentlig funktion f tilbagegiver heltal. Goddag. Farvel.").reports = [] := by
    decide +kernel
  exact ⟨h, (accepts_iff_derives _ h).1.1 (by decide +kernel)⟩

/-- A lone `offentlig` is accepted, and the grammar does not derive it. -/
theorem accepts_lone_offentlig :
    (Token.ofSource "offentlig").reports = [] ∧ (Analysis.ofSource "offentlig").readingReports = [] ∧
      ¬ ∃ d : Document, d.Derives false (Token.ofSource "offentlig").beforeEnd := by
  have htokens : (Token.ofSource "offentlig").beforeEnd = [⟨.word, "offentlig", .start⟩] := by
    decide +kernel
  refine ⟨by decide +kernel, by decide +kernel, ?_⟩
  rw [htokens]
  rintro ⟨d, hd⟩
  unfold Document.Derives at hd
  generalize d.definitions = ds at hd
  generalize hts : [(⟨.word, "offentlig", .start⟩ : Token)] = ts at hd
  cases hd with
  | nil => cases hts
  | cons hd _ =>
    cases hd
    cases hts
  | skip h => cases h

end DanishProse

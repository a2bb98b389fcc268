/-
  What a document is like that was read without a report.

  * A name that was read as a word starts as a word does (`StartsWord`), so it is
    not a name with a dollar sign in front (`sameWord_dollar`);
  * `Clause.Filled`: every clause has a position, and every list a clause, at any
    depth.  Pronouns stand for lists that are filled (`resolveClauses_filled`);
  * `Document.Sound` puts both together, and `ofTokens_sound` says that a document
    without reports is sound.
-/
import Mathlib.Tactic.Common
import DanishProse.Compilation

namespace DanishProse

/-! ## Words -/

/-- A text that starts with a character that words start with. -/
def StartsWord (text : String) : Prop :=
  ∃ c cs, text.toList = c :: cs ∧ isWordStart c = true

theorem target_ge : ∀ run ∈ Text.caseRuns, 0x61 ≤ run.target := by
  decide +kernel

theorem lowerCode_ge {n : Nat} (h : 0x61 ≤ n) : 0x61 ≤ Text.lowerCode n := by
  unfold Text.lowerCode
  split
  · next run hrun =>
    have := target_ge run (List.mem_of_find?_eq_some hrun)
    split <;> omega
  · exact h

theorem ofNat_ne_dollar {n : Nat} (h : 0x61 ≤ n) : Char.ofNat n ≠ '$' := by
  intro he
  have hn := congrArg Char.toNat he
  by_cases hv : n.isValidChar
  · rw [Char.ofNat, dif_pos hv] at hn
    change n = 36 at hn
    omega
  · rw [Char.ofNat, dif_neg hv] at hn
    exact absurd hn (by decide)

/-- No character that a word starts with becomes a dollar sign in lower case. -/
theorem head_lowercase_ne_dollar {c : Char} (h : isWordStart c = true) :
    ∃ d ds, Text.lowercase c = d :: ds ∧ d ≠ '$' := by
  unfold Text.lowercase
  split_ifs with hlow hdot
  · have hascii : ∀ n : Fin 128, isWordStart (Char.ofNat n) = true → (Char.ofNat n).toLower ≠ '$' := by
      decide
    have := hascii ⟨c.toNat, hlow⟩
    rw [Char.ofNat_toNat] at this
    exact ⟨_, _, rfl, this h⟩
  · exact ⟨_, _, rfl, by decide⟩
  · exact ⟨_, _, rfl, ofNat_ne_dollar (lowerCode_ge (by omega))⟩

theorem sameWord_dollar {text : String} (h : StartsWord text) (name : String) (cs : List Char)
    (hn : Text.lowercaseWord name = '$' :: cs) : Text.sameWord name text = false := by
  obtain ⟨c, ds, htext, hc⟩ := h
  obtain ⟨d, es, hd, hne⟩ := head_lowercase_ne_dollar hc
  rw [Bool.eq_false_iff, Ne, Text.sameWord_iff, hn, Text.lowercaseWord, htext, List.flatMap_cons, hd]
  intro he
  exact hne (List.cons.inj he).1.symm

/-! ## Filled clauses -/

mutual

/-- Every list inside the part has a clause, and every clause a part. -/
def Part.Filled : Part → Prop
  | .word _ => True
  | .literal _ => True
  | .list cs => cs ≠ [] ∧ ClausesFilled cs
termination_by structural p => p

/-- Every clause has a part, at any depth. -/
def Clause.Filled : Clause → Prop
  | .mk _ ps => ps ≠ [] ∧ PartsFilled ps
termination_by structural c => c

/-- All parts are filled. -/
def PartsFilled : List Part → Prop
  | [] => True
  | p :: ps => p.Filled ∧ PartsFilled ps
termination_by structural ps => ps

/-- All clauses are filled. -/
def ClausesFilled : List Clause → Prop
  | [] => True
  | c :: cs => c.Filled ∧ ClausesFilled cs
termination_by structural cs => cs

end

theorem clausesFilled_append {cs ds : List Clause} (hc : ClausesFilled cs) (hd : ClausesFilled ds) :
    ClausesFilled (cs ++ ds) := by
  induction cs with
  | nil => exact hd
  | cons c cs ih => exact ⟨hc.1, ih hc.2⟩

mutual

theorem resolveFrom_filled : ∀ (cs : List Clause) {done : List Clause}, ClausesFilled done → ClausesFilled cs →
    ClausesFilled (resolveFrom done cs) ∧ (done ≠ [] ∨ cs ≠ [] → resolveFrom done cs ≠ [])
  | [], done, hd, _ => ⟨hd, fun h => h.elim id (absurd rfl)⟩
  | c :: cs, done, hd, hc => by
    obtain ⟨hr, hne⟩ := resolveAfter_filled c hd hc.1
    obtain ⟨hrs, hnes⟩ := resolveFrom_filled cs hr hc.2
    exact ⟨hrs, fun _ => hnes (.inl hne)⟩

theorem resolveAfter_filled : ∀ (c : Clause) {done : List Clause}, ClausesFilled done → c.Filled →
    ClausesFilled (c.resolveAfter done) ∧ c.resolveAfter done ≠ []
  | .mk l ps, done, hd, hc => by
    obtain ⟨hv, ha, hne⟩ := resolveParts_filled ps hd hc.2
    exact ⟨clausesFilled_append ha ⟨⟨hne hc.1, hv⟩, trivial⟩, by simp [Clause.resolveAfter]⟩

theorem resolveParts_filled : ∀ (ps : List Part) {antecedent : List Clause},
    ClausesFilled antecedent → PartsFilled ps →
      PartsFilled (resolveParts antecedent ps).value ∧
        ClausesFilled (resolveParts antecedent ps).antecedent ∧
          (ps ≠ [] → (resolveParts antecedent ps).value ≠ [])
  | [], _, ha, _ => ⟨trivial, ha, absurd rfl⟩
  | p :: ps, antecedent, ha, hp => by
    obtain ⟨hq, hqa⟩ := Part.resolve_filled p ha hp.1
    obtain ⟨hr, hra, -⟩ := resolveParts_filled ps hqa hp.2
    exact ⟨⟨hq, hr⟩, hra, fun _ => List.cons_ne_nil _ _⟩

theorem Part.resolve_filled : ∀ (p : Part) {antecedent : List Clause},
    ClausesFilled antecedent → p.Filled →
      (p.resolve antecedent).value.Filled ∧ ClausesFilled (p.resolve antecedent).antecedent
  | .word w, antecedent, ha, _ => by
    rw [Part.resolve]
    split_ifs with h
    · have hne : antecedent ≠ [] := by
        rintro rfl
        simp at h
      exact ⟨⟨hne, ha⟩, trivial⟩
    · exact ⟨trivial, ha⟩
  | .literal _, _, ha, _ => ⟨trivial, ha⟩
  | .list cs, _, ha, hp => by
    obtain ⟨hr, hne⟩ := resolveFrom_filled cs (show ClausesFilled [] from trivial) hp.2
    exact ⟨⟨hne (.inr hp.1), hr⟩, ha⟩

end

/-- **Pronouns leave a filled list filled.** -/
theorem resolveClauses_filled {cs : List Clause} (hne : cs ≠ []) (h : ClausesFilled cs) :
    resolveClauses cs ≠ [] ∧ ClausesFilled (resolveClauses cs) := by
  obtain ⟨hr, hne'⟩ := resolveFrom_filled cs (show ClausesFilled [] from trivial) h
  exact ⟨hne' (.inr hne), hr⟩

/-! ## Tokens -/

/-- A token that is a word starts like one. -/
def Token.Sound (t : Token) : Prop :=
  t.kind = .word → StartsWord t.text

theorem isWordStart_of_role {c : Char} {cs : List Char} (h : role c cs = .token .word) :
    isWordStart c = true := by
  unfold role at h
  split_ifs at h with hblank hword hsign hdigit
  · exact hword
  · split at h <;> cases h
  · split at h <;> cases h

theorem scan_sound (l : Location) (cs : List Char) : ∀ p ∈ scan l cs, ∀ t, p.token? = some t → t.Sound := by
  fun_induction scan l cs with
  | case1 => simp
  | case2 l c cs n text ih =>
    intro p hp t ht
    rcases List.mem_cons.1 hp with rfl | hp
    · intro hk
      simp only [Piece.token?] at ht
      split at ht
      · next kind hrole =>
        cases ht
        subst hk
        exact ⟨c, cs.take n, by simp [text], isWordStart_of_role hrole⟩
      · cases ht
    · exact ih p hp t ht

theorem ofSource_sound (source : String) : ∀ t ∈ (Token.ofSource source).tokens, t.Sound := by
  intro t ht
  obtain ⟨ht, -⟩ := List.mem_filter.1 ht
  rcases List.mem_append.1 ht with ht | ht
  · obtain ⟨p, hp, hpt⟩ := List.mem_filterMap.1 ht
    exact scan_sound _ _ p hp t hpt
  · rw [List.mem_singleton.1 ht]
    exact fun hk => by cases hk

/-! ## Readers -/

/-- What a reading without reports gives has a property, and what it leaves are
    sound tokens. -/
def Reading.Yields {α : Type} {ts : List Token} (r : Reading ts α) (P : α → Prop) : Prop :=
  r.reports = [] → P r.value ∧ ∀ t ∈ r.rest, t.Sound

/-- A reader whose readings of sound tokens have a property. -/
def Reader.Yields {α : Type} (r : Reader α) (P : α → Prop) : Prop :=
  ∀ (ending : Location) (ts : List Token), (∀ t ∈ ts, t.Sound) → (r ending ts).Yields P

namespace Reader

theorem yields_pure {α : Type} {a : α} {P : α → Prop} (h : P a) : (pure a : Reader α).Yields P :=
  fun _ _ ht _ => ⟨h, ht⟩

theorem Yields.bind {α β : Type} {r : Reader α} {f : α → Reader β} {P : α → Prop} {Q : β → Prop}
    (hr : r.Yields P) (hf : ∀ a, P a → (f a).Yields Q) : (r >>= f).Yields Q := by
  intro ending ts ht h
  obtain ⟨hra, hrb⟩ := List.append_eq_nil_iff.1 h
  obtain ⟨hP, hrest⟩ := hr ending ts ht hra
  exact hf _ hP ending _ hrest hrb

end Reader

theorem tail_sound {ts : List Token} (ht : ∀ t ∈ ts, t.Sound) : ∀ t ∈ ts.tail, t.Sound := by
  intro t h
  exact ht t (List.mem_of_mem_tail h)

theorem dropKeyword_sound {keyword : String} {ts : List Token} (ht : ∀ t ∈ ts, t.Sound) :
    ∀ t ∈ dropKeyword keyword ts, t.Sound := by
  unfold dropKeyword
  split_ifs
  · exact tail_sound ht
  · exact ht

theorem nextToken_sound (ending : Location) {ts : List Token} (ht : ∀ t ∈ ts, t.Sound) :
    (nextToken ending ts).Sound := by
  cases ts with
  | nil => exact fun hk => by cases hk
  | cons t ts => exact ht t (by simp)

theorem expectKind_yields (kind : TokenKind) :
    (expectKind kind).Yields fun t => t.Sound ∧ t.kind = kind := by
  intro ending ts ht h
  have hk : (nextToken ending ts).kind = kind := by
    by_contra hne
    simp [expectKind, hne] at h
  exact ⟨⟨nextToken_sound ending ht, hk⟩, tail_sound ht⟩

theorem expectWord_yields : (expectKind .word).Yields fun t => StartsWord t.text := by
  intro ending ts ht h
  obtain ⟨⟨hs, hk⟩, hrest⟩ := expectKind_yields .word ending ts ht h
  exact ⟨hs hk, hrest⟩

theorem expectKeyword_yields (keyword : String) : (expectKeyword keyword).Yields fun _ => True := by
  intro ending ts ht _
  exact ⟨trivial, tail_sound ht⟩

theorem optionalKeyword_yields (keyword : String) :
    (optionalKeyword keyword).Yields fun _ => True := by
  intro ending ts ht _
  exact ⟨trivial, dropKeyword_sound ht⟩

/-! ## Clauses that were read -/

/-- The rest of a clause and the clauses after it are filled; the rest of the
    clause is not empty if a part comes next. -/
def ClauseRun.Filled (next : Token) (r : ClauseRun) : Prop :=
  PartsFilled r.parts ∧ ClausesFilled r.others ∧ (next.isPart = true → r.parts ≠ [])

theorem isPart_of_emptyClause {ending : Location} {ts : List Token} (h : emptyClause ending ts = []) :
    (nextToken ending ts).isPart = true := by
  by_contra hne
  simp [emptyClause, hne] at h

theorem ClauseRun.Filled.clauses {next : Token} {r : ClauseRun} (h : r.Filled next)
    (hn : next.isPart = true) (l : Location) : ClausesFilled (r.clauses l) :=
  ⟨⟨h.2.2 hn, h.1⟩, h.2.1⟩

theorem ClauseRun.Filled.push {next t : Token} {r : ClauseRun} {p : Part} (h : r.Filled next)
    (hp : p.Filled) : (r.push p).Filled t :=
  ⟨⟨hp, h.1⟩, h.2.1, fun _ => List.cons_ne_nil _ _⟩

theorem clauseRun_yields (ending : Location) (ts : List Token) (ht : ∀ t ∈ ts, t.Sound) :
    (clauseRun ending ts).Yields (ClauseRun.Filled (nextToken ending ts)) := by
  fun_induction clauseRun ending ts with
  | case1 => exact fun _ => ⟨⟨trivial, trivial, nofun⟩, ht⟩
  | case2 t us hk r ih =>
    intro h
    obtain ⟨hr, hrest⟩ := ih (tail_sound ht) h
    exact ⟨hr.push trivial, hrest⟩
  | case3 t us v hk r ih =>
    intro h
    obtain ⟨hr, hrest⟩ := ih (tail_sound ht) h
    exact ⟨hr.push trivial, hrest⟩
  | case4 t us hk inner close r ihInner ihRest =>
    intro h
    simp only [List.append_eq_nil_iff] at h
    obtain ⟨⟨⟨hnext, hinner⟩, hclose⟩, hr⟩ := h
    obtain ⟨hi, hirest⟩ := ihInner (tail_sound ht) hinner
    obtain ⟨-, hcrest⟩ := expectKind_yields .parenClose ending inner.rest hirest hclose
    obtain ⟨hr, hrest⟩ := ihRest hcrest hr
    have hlist := hi.clauses (isPart_of_emptyClause hnext) (nextToken ending us).location
    exact ⟨hr.push ⟨List.cons_ne_nil _ _, hlist⟩, hrest⟩
  | case5 t us hk vs r ih =>
    intro h
    obtain ⟨hnext, hr⟩ := List.append_eq_nil_iff.1 h
    obtain ⟨hr, hrest⟩ := ih (dropKeyword_sound (tail_sound ht)) hr
    have hlist := hr.clauses (isPart_of_emptyClause hnext) (nextToken ending vs).location
    exact ⟨⟨trivial, hlist, fun hp => by simp [nextToken, Token.isPart, hk] at hp⟩, hrest⟩
  | case6 t us hw hl hp hc =>
    refine fun _ => ⟨⟨trivial, trivial, fun h => ?_⟩, ht⟩
    change t.isPart = true at h
    unfold Token.isPart at h
    split at h
    · next hk => exact absurd hk hw
    · next v hk => exact absurd hk (hl v)
    · next hk => exact absurd hk hp
    · cases h

theorem clauseList_yields : clauseList.Yields fun cs => cs ≠ [] ∧ ClausesFilled cs := by
  intro ending ts ht h
  obtain ⟨hnext, hr⟩ := List.append_eq_nil_iff.1 h
  obtain ⟨hr, hrest⟩ := clauseRun_yields ending ts ht hr
  exact ⟨⟨List.cons_ne_nil _ _, hr.clauses (isPart_of_emptyClause hnext) _⟩, hrest⟩

theorem stoppedClauses_yields : stoppedClauses.Yields fun cs => cs ≠ [] ∧ ClausesFilled cs := by
  refine clauseList_yields.bind fun cs hcs => ?_
  refine (expectKind_yields .dot).bind fun _ _ => ?_
  exact Reader.yields_pure (resolveClauses_filled hcs.1 hcs.2)

/-! ## Sentences that were read -/

mutual

/-- The clauses of a sentence are filled, and the types that it names are words. -/
def Sentence.Sound : Sentence → Prop
  | .declare _ typeName _ => StartsWord typeName
  | .express cs => cs ≠ [] ∧ ClausesFilled cs
  | .giveBack cs => cs ≠ [] ∧ ClausesFilled cs
  | .when cs body => (cs ≠ [] ∧ ClausesFilled cs) ∧ SentencesSound body
  | .whenElse cs body otherwise =>
    (cs ≠ [] ∧ ClausesFilled cs) ∧ SentencesSound body ∧ SentencesSound otherwise
  | .loop cs body => (cs ≠ [] ∧ ClausesFilled cs) ∧ SentencesSound body

/-- All sentences are sound. -/
def SentencesSound : List Sentence → Prop
  | [] => True
  | s :: ss => s.Sound ∧ SentencesSound ss

end

theorem blockOpening_yields : blockOpening.Yields fun _ => True := by
  refine (expectKeyword_yields "goddag").bind fun _ _ => ?_
  refine (expectKind_yields .dot).bind fun _ _ => ?_
  exact Reader.yields_pure trivial

theorem blockClosing_yields : blockClosing.Yields fun _ => True := by
  refine (expectKeyword_yields "farvel").bind fun _ _ => ?_
  refine (expectKind_yields .dot).bind fun _ _ => ?_
  exact Reader.yields_pure trivial

theorem condition_yields : condition.Yields fun cs => cs ≠ [] ∧ ClausesFilled cs := by
  refine stoppedClauses_yields.bind fun cs hcs => ?_
  refine blockOpening_yields.bind fun _ _ => ?_
  exact Reader.yields_pure hcs

theorem otherwiseOpening_yields : otherwiseOpening.Yields fun _ => True :=
  (expectKind_yields .dot).bind fun _ _ => blockOpening_yields

theorem declaration_yields : declaration.Yields Sentence.Sound := by
  refine expectWord_yields.bind fun _ _ => ?_
  refine (expectKeyword_yields "være").bind fun _ _ => ?_
  refine (optionalKeyword_yields "en").bind fun _ _ => ?_
  refine (optionalKeyword_yields "et").bind fun _ _ => ?_
  refine expectWord_yields.bind fun typeName hw => ?_
  refine (expectKind_yields .dot).bind fun _ _ => ?_
  exact Reader.yields_pure hw

theorem sentences_yields (ending : Location) (ts : List Token) (ht : ∀ t ∈ ts, t.Sound) :
    (sentences ending ts).Yields SentencesSound := by
  fun_induction sentences ending ts with
  | case1 => exact fun _ => ⟨trivial, ht⟩
  | case2 => exact fun _ => ⟨trivial, ht⟩
  | case3 t us _ _ d more ih =>
    intro h
    obtain ⟨hd, hmore⟩ := List.append_eq_nil_iff.1 h
    obtain ⟨hs, hrest⟩ := declaration_yields ending us (tail_sound ht) hd
    obtain ⟨hss, hrest⟩ := ih hrest hmore
    exact ⟨⟨hs, hss⟩, hrest⟩
  | case4 t us _ _ _ c body close _ o other close₂ more ihBody _ ihOther _ ihMore =>
    intro h
    simp only [List.append_eq_nil_iff] at h
    obtain ⟨⟨⟨⟨⟨⟨hc, hbody⟩, hclose⟩, ho⟩, hother⟩, hclose₂⟩, hmore⟩ := h
    obtain ⟨hcs, hrest⟩ := condition_yields ending us (tail_sound ht) hc
    obtain ⟨hbs, hrest⟩ := ihBody hrest hbody
    obtain ⟨-, hrest⟩ := blockClosing_yields ending body.rest hrest hclose
    obtain ⟨-, hrest⟩ := otherwiseOpening_yields ending close.rest.tail (tail_sound hrest) ho
    obtain ⟨hos, hrest⟩ := ihOther hrest hother
    obtain ⟨-, hrest⟩ := blockClosing_yields ending other.rest hrest hclose₂
    obtain ⟨hss, hrest⟩ := ihMore hrest hmore
    exact ⟨⟨⟨hcs, hbs, hos⟩, hss⟩, hrest⟩
  | case5 t us _ _ _ c body close _ more ihBody _ ihMore =>
    intro h
    simp only [List.append_eq_nil_iff] at h
    obtain ⟨⟨⟨hc, hbody⟩, hclose⟩, hmore⟩ := h
    obtain ⟨hcs, hrest⟩ := condition_yields ending us (tail_sound ht) hc
    obtain ⟨hbs, hrest⟩ := ihBody hrest hbody
    obtain ⟨-, hrest⟩ := blockClosing_yields ending body.rest hrest hclose
    obtain ⟨hss, hrest⟩ := ihMore hrest hmore
    exact ⟨⟨⟨hcs, hbs⟩, hss⟩, hrest⟩
  | case6 t us _ _ _ _ c body close more ihBody _ ihMore =>
    intro h
    simp only [List.append_eq_nil_iff] at h
    obtain ⟨⟨⟨hc, hbody⟩, hclose⟩, hmore⟩ := h
    obtain ⟨hcs, hrest⟩ := condition_yields ending us (tail_sound ht) hc
    obtain ⟨hbs, hrest⟩ := ihBody hrest hbody
    obtain ⟨-, hrest⟩ := blockClosing_yields ending body.rest hrest hclose
    obtain ⟨hss, hrest⟩ := ihMore hrest hmore
    exact ⟨⟨⟨hcs, hbs⟩, hss⟩, hrest⟩
  | case7 t us _ _ _ _ _ c more ih =>
    intro h
    obtain ⟨hc, hmore⟩ := List.append_eq_nil_iff.1 h
    obtain ⟨hcs, hrest⟩ := stoppedClauses_yields ending us (tail_sound ht) hc
    obtain ⟨hss, hrest⟩ := ih hrest hmore
    exact ⟨⟨hcs, hss⟩, hrest⟩
  | case8 t us _ _ _ _ _ c more ih =>
    intro h
    obtain ⟨hc, hmore⟩ := List.append_eq_nil_iff.1 h
    obtain ⟨hcs, hrest⟩ := stoppedClauses_yields ending (t :: us) ht hc
    obtain ⟨hss, hrest⟩ := ih hrest hmore
    exact ⟨⟨hcs, hss⟩, hrest⟩

theorem block_yields : block.Yields SentencesSound := by
  refine blockOpening_yields.bind fun _ _ => ?_
  refine Reader.Yields.bind (r := sentences) (P := SentencesSound) sentences_yields fun body hbody => ?_
  refine blockClosing_yields.bind fun _ _ => ?_
  exact Reader.yields_pure hbody

/-! ## Definitions that were read -/

/-- The type that a parameter names is a word. -/
def PatternPart.Sound (p : PatternPart) : Prop :=
  ∀ typeName, p.typeName? = some typeName → StartsWord typeName

/-- The types that a definition names are words, and its body is sound. -/
structure Definition.Sound (d : Definition) : Prop where
  parts : ∀ p ∈ d.pattern.parts, p.Sound
  returnName : StartsWord d.returnName
  body : SentencesSound d.body

/-- All definitions are sound. -/
def Document.Sound (d : Document) : Prop :=
  ∀ f ∈ d.definitions, f.Sound

theorem parameter_yields : parameter.Yields PatternPart.Sound := by
  refine expectWord_yields.bind fun _ _ => ?_
  refine (expectKeyword_yields "som").bind fun _ _ => ?_
  refine expectWord_yields.bind fun typeName hw => ?_
  refine (expectKind_yields .parenClose).bind fun _ _ => ?_
  refine Reader.yields_pure ?_
  rintro _ ⟨⟩
  exact hw

theorem patternParts_yields (ending : Location) (ts : List Token) (ht : ∀ t ∈ ts, t.Sound) :
    (patternParts ending ts).Yields fun ps => ∀ p ∈ ps, p.Sound := by
  fun_induction patternParts ending ts with
  | case1 => exact fun _ => ⟨by simp, ht⟩
  | case2 => exact fun _ => ⟨by simp, ht⟩
  | case3 t us _ _ more ih =>
    intro h
    obtain ⟨hps, hrest⟩ := ih (tail_sound ht) h
    exact ⟨List.forall_mem_cons.2 ⟨nofun, hps⟩, hrest⟩
  | case4 t us _ _ _ p more ih =>
    intro h
    obtain ⟨hp, hmore⟩ := List.append_eq_nil_iff.1 h
    obtain ⟨hps, hrest⟩ := parameter_yields ending us (tail_sound ht) hp
    obtain ⟨hpss, hrest⟩ := ih hrest hmore
    exact ⟨List.forall_mem_cons.2 ⟨hps, hpss⟩, hrest⟩
  | case5 => exact fun _ => ⟨by simp, ht⟩

theorem nextLocation_yields : nextLocation.Yields fun _ => True := by
  intro ending ts ht _
  exact ⟨trivial, ht⟩

theorem definition_yields : definition.Yields Definition.Sound := by
  refine nextLocation_yields.bind fun _ _ => ?_
  refine Reader.Yields.bind (P := fun ps : List PatternPart => ∀ p ∈ ps, p.Sound)
    patternParts_yields fun ps hps => ?_
  refine (expectKeyword_yields "tilbagegiver").bind fun _ _ => ?_
  refine expectWord_yields.bind fun returnName hw => ?_
  refine (expectKind_yields .dot).bind fun _ _ => ?_
  refine block_yields.bind fun body hbody => ?_
  exact Reader.yields_pure ⟨hps, hw, hbody⟩

theorem readDefinitions_yields (ending : Location) (ts : List Token) (ht : ∀ t ∈ ts, t.Sound) :
    (readDefinitions ending ts).Yields fun ds => ∀ d ∈ ds, d.Sound := by
  fun_induction readDefinitions ending ts with
  | case1 => exact fun _ => ⟨by simp, ht⟩
  | case2 => exact fun _ => ⟨by simp, ht⟩
  | case3 t us _ reports _ d hempty more ih =>
    intro h
    have hd : d.reports = [] := (List.append_eq_nil_iff.1 (List.isEmpty_iff.1 hempty)).2
    obtain ⟨hs, hrest⟩ := definition_yields ending us.tail (tail_sound (tail_sound ht)) hd
    obtain ⟨hss, hrest⟩ := ih hrest h
    exact ⟨List.forall_mem_cons.2 ⟨hs, hss⟩, hrest⟩
  | case4 t us _ reports _ d hne =>
    exact fun h => absurd (List.isEmpty_iff.2 h) hne
  | case5 t us _ reports _ _ more ih => exact ih (tail_sound ht)
  | case6 t us _ reports _ hne =>
    exact fun h => absurd (List.isEmpty_iff.2 h) hne

/-- **A document without reports is sound.** -/
theorem ofTokens_sound {clean : Bool} {ts : List Token} (ht : ∀ t ∈ ts, t.Sound)
    (h : (Document.ofTokens clean ts).2 = []) : (Document.ofTokens clean ts).1.Sound := by
  cases clean with
  | false => exact fun f hf => by simp [Document.ofTokens] at hf
  | true =>
    have hts : ∀ t ∈ ts.filter (·.kind ≠ .comment), t.Sound :=
      fun t h => ht t (List.mem_filter.1 h).1
    exact (readDefinitions_yields _ _ hts h).1

end DanishProse

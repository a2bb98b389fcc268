/-
  Texts that only differ in letter case, layout and comments.

  * Tokens are alike if they are of one kind and the same word.  Clauses, sentences
    and definitions are alike if they have the same form and like words, wherever
    they begin; reports are alike if they are of one kind, with like words in them;
  * readers are alike if they read like tokens alike (`Reader.Alike`): in what they
    give, in what they leave, and in what they report;
  * `ofTokens_alike`: like tokens are read as like documents, with like reports.
-/
import Mathlib.Data.List.Forall2
import Mathlib.Tactic.Common
import DanishProse.Proofs.Reading

namespace DanishProse

/-! ## Words -/

/-- The same word, in whatever letters. -/
def WordAlike (v w : String) : Prop :=
  Text.sameWord v w = true

theorem WordAlike.refl (w : String) : WordAlike w w :=
  Text.sameWord_refl w

/-- What is compared with a word is compared with all words like it. -/
theorem WordAlike.sameWord_eq {v v' w w' : String} (hv : WordAlike v v') (hw : WordAlike w w') :
    Text.sameWord v w = Text.sameWord v' w' := by
  unfold WordAlike at hv hw
  rw [Text.sameWord_iff] at hv hw
  rw [Text.sameWord, Text.sameWord, hv, hw]

theorem lowercaseWord_append (v w : String) :
    Text.lowercaseWord (v ++ w) = Text.lowercaseWord v ++ Text.lowercaseWord w := by
  rw [Text.lowercaseWord, String.toList_append, List.flatMap_append]
  rfl

theorem WordAlike.append {v v' w w' : String} (hv : WordAlike v v') (hw : WordAlike w w') :
    WordAlike (v ++ w) (v' ++ w') := by
  unfold WordAlike at *
  rw [Text.sameWord_iff] at *
  rw [lowercaseWord_append, lowercaseWord_append, hv, hw]

/-! ## Reports -/

/-- The same kind of problem, with like words. -/
inductive Problem.Alike : Problem → Problem → Prop
  | refl (p : Problem) : Problem.Alike p p
  | unexpectedToken (wanted : String) {given given' : String} : WordAlike given given' →
      Problem.Alike (.unexpectedToken wanted given) (.unexpectedToken wanted given')
  | unresolvedType {name name' : String} : WordAlike name name' →
      Problem.Alike (.unresolvedType name) (.unresolvedType name')
  | unresolvedFunction {pattern pattern' : String} : WordAlike pattern pattern' →
      Problem.Alike (.unresolvedFunction pattern) (.unresolvedFunction pattern')

/-- Reports of like problems, anywhere. -/
def Report.Alike (r s : Report) : Prop :=
  r.problem.Alike s.problem

/-! ## Tokens -/

/-- The same kind of token, and the same word. -/
structure Token.Alike (t u : Token) : Prop where
  kind : t.kind = u.kind
  text : WordAlike t.text u.text

/-- Tokens that are alike one by one. -/
abbrev TokensAlike (ts us : List Token) : Prop :=
  List.Forall₂ Token.Alike ts us

section
variable {t u : Token} {ts us : List Token}

theorem Token.Alike.reads_eq (h : t.Alike u) (keyword : String) : t.reads keyword = u.reads keyword :=
  h.text.sameWord_eq (.refl keyword)

theorem TokensAlike.tail (h : TokensAlike ts us) : TokensAlike ts.tail us.tail := by
  cases h with
  | nil => exact .nil
  | cons _ h => exact h

theorem TokensAlike.nextToken (h : TokensAlike ts us) (l m : Location) :
    (nextToken l ts).Alike (nextToken m us) := by
  cases h with
  | nil => exact ⟨rfl, .refl ""⟩
  | cons h _ => exact h

theorem TokensAlike.nextReads_eq (h : TokensAlike ts us) (keyword : String) :
    nextReads keyword ts = nextReads keyword us := by
  cases h with
  | nil => rfl
  | cons h _ => exact h.reads_eq keyword

theorem TokensAlike.dropKeyword (h : TokensAlike ts us) (keyword : String) :
    TokensAlike (dropKeyword keyword ts) (dropKeyword keyword us) := by
  unfold DanishProse.dropKeyword
  rw [h.nextReads_eq]
  split_ifs
  · exact h.tail
  · exact h

end

/-! ## Clauses -/

mutual

/-- Parts of the same form, with like words. -/
inductive Part.Alike : Part → Part → Prop
  | word {v w : String} : WordAlike v w → Part.Alike (.word v) (.word w)
  | literal (v : Literal) : Part.Alike (.literal v) (.literal v)
  | list {cs ds : List Clause} : ClausesAlike cs ds → Part.Alike (.list cs) (.list ds)

/-- Clauses with like parts, wherever they begin. -/
inductive Clause.Alike : Clause → Clause → Prop
  | mk {l m : Location} {ps qs : List Part} : PartsAlike ps qs → Clause.Alike (.mk l ps) (.mk m qs)

/-- Parts that are alike one by one. -/
inductive PartsAlike : List Part → List Part → Prop
  | nil : PartsAlike [] []
  | cons {p q : Part} {ps qs : List Part} : p.Alike q → PartsAlike ps qs → PartsAlike (p :: ps) (q :: qs)

/-- Clauses that are alike one by one. -/
inductive ClausesAlike : List Clause → List Clause → Prop
  | nil : ClausesAlike [] []
  | cons {c d : Clause} {cs ds : List Clause} : c.Alike d → ClausesAlike cs ds →
      ClausesAlike (c :: cs) (d :: ds)

end

theorem ClausesAlike.append : ∀ {cs ds cs' ds' : List Clause}, ClausesAlike cs ds → ClausesAlike cs' ds' →
    ClausesAlike (cs ++ cs') (ds ++ ds')
  | _, _, _, _, .nil, h => h
  | _, _, _, _, .cons hc hcs, h => .cons hc (hcs.append h)

theorem ClausesAlike.isEmpty_eq {cs ds : List Clause} (h : ClausesAlike cs ds) : cs.isEmpty = ds.isEmpty := by
  cases h <;> rfl

mutual

theorem Part.Alike.refl : ∀ (p : Part), p.Alike p
  | .word w => .word (.refl w)
  | .literal v => .literal v
  | .list cs => .list (ClausesAlike.refl cs)

theorem Clause.Alike.refl : ∀ (c : Clause), c.Alike c
  | .mk _ ps => .mk (PartsAlike.refl ps)

theorem PartsAlike.refl : ∀ (ps : List Part), PartsAlike ps ps
  | [] => .nil
  | p :: ps => .cons (Part.Alike.refl p) (PartsAlike.refl ps)

theorem ClausesAlike.refl : ∀ (cs : List Clause), ClausesAlike cs cs
  | [] => .nil
  | c :: cs => .cons (Clause.Alike.refl c) (ClausesAlike.refl cs)

end

/-! ## Pronouns -/

theorem WordAlike.isPronoun_eq {v w : String} (h : WordAlike v w) : isPronoun v = isPronoun w := by
  rw [isPronoun, isPronoun, h.sameWord_eq (.refl "det"), h.sameWord_eq (.refl "den")]

mutual

theorem resolveFrom_alike : ∀ {cs ds : List Clause} {done done' : List Clause}, ClausesAlike cs ds →
    ClausesAlike done done' → ClausesAlike (resolveFrom done cs) (resolveFrom done' ds)
  | _, _, _, _, .nil, hdone => hdone
  | _, _, _, _, .cons hc hcs, hdone => by
    rw [resolveFrom, resolveFrom]
    exact resolveFrom_alike hcs (resolveAfter_alike hc hdone)

theorem resolveAfter_alike : ∀ {c d : Clause} {done done' : List Clause}, c.Alike d →
    ClausesAlike done done' → ClausesAlike (c.resolveAfter done) (d.resolveAfter done')
  | _, _, _, _, .mk hps, hdone => by
    obtain ⟨hvalue, hantecedent⟩ := resolveParts_alike hps hdone
    exact hantecedent.append (.cons (.mk hvalue) .nil)

theorem resolveParts_alike : ∀ {ps qs : List Part} {antecedent antecedent' : List Clause},
    PartsAlike ps qs → ClausesAlike antecedent antecedent' →
      PartsAlike (resolveParts antecedent ps).value (resolveParts antecedent' qs).value ∧
        ClausesAlike (resolveParts antecedent ps).antecedent (resolveParts antecedent' qs).antecedent
  | _, _, _, _, .nil, ha => ⟨.nil, ha⟩
  | _, _, _, _, .cons hp hps, ha => by
    obtain ⟨hq, hqa⟩ := Part.resolve_alike hp ha
    obtain ⟨hr, hra⟩ := resolveParts_alike hps hqa
    exact ⟨.cons hq hr, hra⟩

theorem Part.resolve_alike : ∀ {p q : Part} {antecedent antecedent' : List Clause},
    p.Alike q → ClausesAlike antecedent antecedent' →
      (p.resolve antecedent).value.Alike (q.resolve antecedent').value ∧
        ClausesAlike (p.resolve antecedent).antecedent (q.resolve antecedent').antecedent
  | _, _, _, _, .word hw, ha => by
    rw [Part.resolve, Part.resolve, hw.isPronoun_eq, ha.isEmpty_eq]
    split_ifs
    · exact ⟨.list ha, .nil⟩
    · exact ⟨.word hw, ha⟩
  | _, _, _, _, .literal v, ha => ⟨.literal v, ha⟩
  | _, _, _, _, .list hcs, ha => ⟨.list (resolveFrom_alike hcs .nil), ha⟩

end

/-- **Pronouns of like clauses are resolved alike.** -/
theorem resolveClauses_alike {cs ds : List Clause} (h : ClausesAlike cs ds) :
    ClausesAlike (resolveClauses cs) (resolveClauses ds) :=
  resolveFrom_alike h .nil

/-! ## Readers -/

/-- Readings are alike in their values, in what they leave, and in their reports. -/
structure Reading.Alike {α : Type} {ts us : List Token} (R : α → α → Prop) (r : Reading ts α)
    (s : Reading us α) : Prop where
  value : R r.value s.value
  rest : TokensAlike r.rest s.rest
  reports : List.Forall₂ Report.Alike r.reports s.reports

/-- Readers that read like tokens alike. -/
def Reader.Alike {α : Type} (R : α → α → Prop) (r s : Reader α) : Prop :=
  ∀ (ts us : List Token), TokensAlike ts us → ∀ l m, (r l ts).Alike R (s m us)

theorem reports_append {r r' s s' : List Report} (h : List.Forall₂ Report.Alike r s)
    (h' : List.Forall₂ Report.Alike r' s') : List.Forall₂ Report.Alike (r ++ r') (s ++ s') :=
  List.rel_append h h'

section
variable {α β : Type} {R : α → α → Prop} {S : β → β → Prop}

theorem Reader.alike_pure {a b : α} (h : R a b) : Reader.Alike R (pure a) (pure b) :=
  fun _ _ hts _ _ => ⟨h, hts, .nil⟩

theorem Reader.Alike.bind {r s : Reader α} {f g : α → Reader β} (h : Reader.Alike R r s)
    (hf : ∀ a b, R a b → Reader.Alike S (f a) (g b)) : Reader.Alike S (r >>= f) (s >>= g) := by
  intro ts us hts l m
  have ha := h ts us hts l m
  have hb := hf _ _ ha.value _ _ ha.rest l m
  exact ⟨hb.value, hb.rest, reports_append ha.reports hb.reports⟩

theorem expectKind_alike (kind : TokenKind) : Reader.Alike Token.Alike (expectKind kind) (expectKind kind) := by
  intro ts us hts l m
  have hnext := hts.nextToken l m
  refine ⟨hnext, hts.tail, ?_⟩
  simp only [expectKind, hnext.kind]
  split_ifs
  · exact .nil
  · exact .cons (.refl _) .nil

theorem expectKeyword_alike (keyword : String) :
    Reader.Alike Token.Alike (expectKeyword keyword) (expectKeyword keyword) := by
  intro ts us hts l m
  have hnext := hts.nextToken l m
  refine ⟨hnext, hts.tail, ?_⟩
  simp only [expectKeyword, hnext.kind, hnext.reads_eq keyword]
  split_ifs
  · exact .nil
  · exact .cons (.unexpectedToken _ hnext.text) .nil
  · exact .cons (.refl _) .nil

theorem optionalKeyword_alike (keyword : String) :
    Reader.Alike (fun _ _ => True) (optionalKeyword keyword) (optionalKeyword keyword) :=
  fun _ _ hts _ _ => ⟨trivial, hts.dropKeyword keyword, .nil⟩

theorem nextLocation_alike : Reader.Alike (fun _ _ => True) nextLocation nextLocation :=
  fun _ _ hts _ _ => ⟨trivial, hts, .nil⟩

end

/-! ## Clauses that are read -/

/-- Rests of like clauses, with like clauses after them. -/
structure ClauseRun.Alike (r s : ClauseRun) : Prop where
  parts : PartsAlike r.parts s.parts
  others : ClausesAlike r.others s.others

theorem ClauseRun.Alike.push {r s : ClauseRun} {p q : Part} (h : r.Alike s) (hp : p.Alike q) :
    (r.push p).Alike (s.push q) :=
  ⟨.cons hp h.parts, h.others⟩

theorem ClauseRun.Alike.clauses {r s : ClauseRun} (h : r.Alike s) (l m : Location) :
    ClausesAlike (r.clauses l) (s.clauses m) :=
  .cons (.mk h.parts) h.others

theorem emptyClause_alike {ts us : List Token} (h : TokensAlike ts us) (l m : Location) :
    List.Forall₂ Report.Alike (emptyClause l ts) (emptyClause m us) := by
  have hpart : (nextToken l ts).isPart = (nextToken m us).isPart := by
    rw [Token.isPart, Token.isPart, (h.nextToken l m).kind]
  simp only [emptyClause, hpart]
  split_ifs
  · exact .nil
  · exact .cons (.refl _) .nil

theorem clauseRun_alike (l m : Location) (ts : List Token) :
    ∀ us, TokensAlike ts us → (clauseRun l ts).Alike ClauseRun.Alike (clauseRun m us) := by
  fun_induction clauseRun l ts with
  | case1 =>
    intro us h
    cases h
    rw [clauseRun]
    exact ⟨⟨.nil, .nil⟩, .nil, .nil⟩
  | case2 t ts hk r ih =>
    rintro _ (_ | @⟨_, u, _, us, ht, hts⟩)
    have hr := ih us hts
    rw [clauseRun, ← ht.kind, hk]
    exact ⟨hr.value.push (.word ht.text), hr.rest, hr.reports⟩
  | case3 t ts v hk r ih =>
    rintro _ (_ | @⟨_, u, _, us, ht, hts⟩)
    have hr := ih us hts
    rw [clauseRun, ← ht.kind, hk]
    exact ⟨hr.value.push (.literal v), hr.rest, hr.reports⟩
  | case4 t ts hk inner close r ihInner ihRest =>
    rintro _ (_ | @⟨_, u, _, us, ht, hts⟩)
    have hinner := ihInner us hts
    have hclose := expectKind_alike .parenClose _ _ hinner.rest l m
    have hr := ihRest _ hclose.rest
    rw [clauseRun, ← ht.kind, hk]
    refine ⟨hr.value.push (.list (hinner.value.clauses _ _)), hr.rest, ?_⟩
    exact reports_append (reports_append (reports_append (emptyClause_alike hts l m) hinner.reports)
      hclose.reports) hr.reports
  | case5 t ts hk vs r ih =>
    rintro _ (_ | @⟨_, u, _, us, ht, hts⟩)
    have hvs := TokensAlike.dropKeyword hts "og"
    have hr := ih _ hvs
    rw [clauseRun, ← ht.kind, hk]
    exact ⟨⟨.nil, hr.value.clauses _ _⟩, hr.rest, reports_append (emptyClause_alike hvs l m) hr.reports⟩
  | case6 t ts hw hl hp hc =>
    rintro _ (_ | @⟨_, u, _, us, ht, hts⟩)
    rw [clauseRun, ← ht.kind]
    split
    · next hk => exact absurd hk hw
    · next v hk => exact absurd hk (hl v)
    · next hk => exact absurd hk hp
    · next hk => exact absurd hk hc
    · exact ⟨⟨.nil, .nil⟩, .cons ht hts, .nil⟩

theorem clauseList_alike : Reader.Alike ClausesAlike clauseList clauseList := by
  intro ts us hts l m
  have hr := clauseRun_alike l m ts us hts
  exact ⟨hr.value.clauses _ _, hr.rest, reports_append (emptyClause_alike hts l m) hr.reports⟩

theorem stoppedClauses_alike : Reader.Alike ClausesAlike stoppedClauses stoppedClauses := by
  refine clauseList_alike.bind fun cs ds hcs => ?_
  refine (expectKind_alike .dot).bind fun _ _ _ => ?_
  exact Reader.alike_pure (resolveClauses_alike hcs)

/-! ## Sentences -/

mutual

/-- Sentences of the same form, with like words. -/
inductive Sentence.Alike : Sentence → Sentence → Prop
  | declare {name name' typeName typeName' : String} (l m : Location) : WordAlike name name' →
      WordAlike typeName typeName' →
      Sentence.Alike (.declare name typeName l) (.declare name' typeName' m)
  | express {cs ds : List Clause} : ClausesAlike cs ds → Sentence.Alike (.express cs) (.express ds)
  | giveBack {cs ds : List Clause} : ClausesAlike cs ds → Sentence.Alike (.giveBack cs) (.giveBack ds)
  | when {cs ds : List Clause} {body body' : List Sentence} : ClausesAlike cs ds →
      SentencesAlike body body' → Sentence.Alike (.when cs body) (.when ds body')
  | whenElse {cs ds : List Clause} {body body' otherwise otherwise' : List Sentence} :
      ClausesAlike cs ds → SentencesAlike body body' → SentencesAlike otherwise otherwise' →
      Sentence.Alike (.whenElse cs body otherwise) (.whenElse ds body' otherwise')
  | loop {cs ds : List Clause} {body body' : List Sentence} : ClausesAlike cs ds →
      SentencesAlike body body' → Sentence.Alike (.loop cs body) (.loop ds body')

/-- Sentences that are alike one by one. -/
inductive SentencesAlike : List Sentence → List Sentence → Prop
  | nil : SentencesAlike [] []
  | cons {s s' : Sentence} {ss ss' : List Sentence} : s.Alike s' → SentencesAlike ss ss' →
      SentencesAlike (s :: ss) (s' :: ss')

end

mutual

theorem Sentence.Alike.refl : ∀ (s : Sentence), s.Alike s
  | .declare name typeName l => .declare l l (.refl name) (.refl typeName)
  | .express cs => .express (.refl cs)
  | .giveBack cs => .giveBack (.refl cs)
  | .when cs body => .when (.refl cs) (SentencesAlike.refl body)
  | .whenElse cs body otherwise =>
    .whenElse (.refl cs) (SentencesAlike.refl body) (SentencesAlike.refl otherwise)
  | .loop cs body => .loop (.refl cs) (SentencesAlike.refl body)

theorem SentencesAlike.refl : ∀ (ss : List Sentence), SentencesAlike ss ss
  | [] => .nil
  | s :: ss => .cons (Sentence.Alike.refl s) (SentencesAlike.refl ss)

end

theorem blockOpening_alike : Reader.Alike (fun _ _ => True) blockOpening blockOpening := by
  refine (expectKeyword_alike "goddag").bind fun _ _ _ => ?_
  refine (expectKind_alike .dot).bind fun _ _ _ => ?_
  exact Reader.alike_pure trivial

theorem blockClosing_alike : Reader.Alike (fun _ _ => True) blockClosing blockClosing := by
  refine (expectKeyword_alike "farvel").bind fun _ _ _ => ?_
  refine (expectKind_alike .dot).bind fun _ _ _ => ?_
  exact Reader.alike_pure trivial

theorem condition_alike : Reader.Alike ClausesAlike condition condition := by
  refine stoppedClauses_alike.bind fun _ _ hcs => ?_
  refine blockOpening_alike.bind fun _ _ _ => ?_
  exact Reader.alike_pure hcs

theorem otherwiseOpening_alike : Reader.Alike (fun _ _ => True) otherwiseOpening otherwiseOpening :=
  (expectKind_alike .dot).bind fun _ _ _ => blockOpening_alike

theorem declaration_alike : Reader.Alike Sentence.Alike declaration declaration := by
  refine (expectKind_alike .word).bind fun name name' hname => ?_
  refine (expectKeyword_alike "være").bind fun _ _ _ => ?_
  refine (optionalKeyword_alike "en").bind fun _ _ _ => ?_
  refine (optionalKeyword_alike "et").bind fun _ _ _ => ?_
  refine (expectKind_alike .word).bind fun typeName typeName' htype => ?_
  refine (expectKind_alike .dot).bind fun _ _ _ => ?_
  exact Reader.alike_pure (.declare _ _ hname.text htype.text)

theorem sentences_alike (l m : Location) (ts : List Token) :
    ∀ us, TokensAlike ts us → (sentences l ts).Alike SentencesAlike (sentences m us) := by
  fun_induction sentences l ts with
  | case1 =>
    intro us h
    cases h
    rw [sentences]
    exact ⟨.nil, .nil, .nil⟩
  | case2 t ts hend =>
    rintro _ (_ | @⟨_, u, _, us, ht, hts⟩)
    rw [ht.kind, ht.reads_eq] at hend
    rw [sentences, if_pos hend]
    exact ⟨.nil, .cons ht hts, .nil⟩
  | case3 t ts hend hlad d more ih =>
    rintro _ (_ | @⟨_, u, _, us, ht, hts⟩)
    rw [ht.kind, ht.reads_eq] at hend
    rw [ht.reads_eq] at hlad
    have hd := declaration_alike ts us hts l m
    have hmore := ih _ hd.rest
    rw [sentences, if_neg hend, if_pos hlad]
    exact ⟨.cons hd.value hmore.value, hmore.rest, reports_append hd.reports hmore.reports⟩
  | case4 t ts hend hlad hhvis c body close hellers o other close₂ more ihBody _ ihOther _ ihMore =>
    rintro _ (_ | @⟨_, u, _, us, ht, hts⟩)
    rw [ht.kind, ht.reads_eq] at hend
    rw [ht.reads_eq] at hlad hhvis
    have hc := condition_alike ts us hts l m
    have hbody := ihBody _ hc.rest
    have hclose := blockClosing_alike _ _ hbody.rest l m
    have ho := otherwiseOpening_alike _ _ hclose.rest.tail l m
    have hother := ihOther _ ho.rest
    have hclose₂ := blockClosing_alike _ _ hother.rest l m
    have hmore := ihMore _ hclose₂.rest
    rw [TokensAlike.nextReads_eq hclose.rest] at hellers
    rw [sentences, if_neg hend, if_neg hlad, if_pos hhvis, if_pos hellers]
    refine ⟨.cons (.whenElse hc.value hbody.value hother.value) hmore.value, hmore.rest, ?_⟩
    exact reports_append (reports_append (reports_append (reports_append (reports_append
      (reports_append hc.reports hbody.reports) hclose.reports) ho.reports) hother.reports)
      hclose₂.reports) hmore.reports
  | case5 t ts hend hlad hhvis c body close hellers more ihBody _ ihMore =>
    rintro _ (_ | @⟨_, u, _, us, ht, hts⟩)
    rw [ht.kind, ht.reads_eq] at hend
    rw [ht.reads_eq] at hlad hhvis
    have hc := condition_alike ts us hts l m
    have hbody := ihBody _ hc.rest
    have hclose := blockClosing_alike _ _ hbody.rest l m
    have hmore := ihMore _ hclose.rest
    rw [TokensAlike.nextReads_eq hclose.rest] at hellers
    rw [sentences, if_neg hend, if_neg hlad, if_pos hhvis, if_neg hellers]
    exact ⟨.cons (.when hc.value hbody.value) hmore.value, hmore.rest,
      reports_append (reports_append (reports_append hc.reports hbody.reports) hclose.reports) hmore.reports⟩
  | case6 t ts hend hlad hhvis himens c body close more ihBody _ ihMore =>
    rintro _ (_ | @⟨_, u, _, us, ht, hts⟩)
    rw [ht.kind, ht.reads_eq] at hend
    rw [ht.reads_eq] at hlad hhvis
    rw [ht.reads_eq, ht.reads_eq] at himens
    have hc := condition_alike ts us hts l m
    have hbody := ihBody _ hc.rest
    have hclose := blockClosing_alike _ _ hbody.rest l m
    have hmore := ihMore _ hclose.rest
    rw [sentences, if_neg hend, if_neg hlad, if_neg hhvis, if_pos himens]
    exact ⟨.cons (.loop hc.value hbody.value) hmore.value, hmore.rest,
      reports_append (reports_append (reports_append hc.reports hbody.reports) hclose.reports) hmore.reports⟩
  | case7 t ts hend hlad hhvis himens hgive c more ih =>
    rintro _ (_ | @⟨_, u, _, us, ht, hts⟩)
    rw [ht.kind, ht.reads_eq] at hend
    rw [ht.reads_eq] at hlad hhvis hgive
    rw [ht.reads_eq, ht.reads_eq] at himens
    have hc := stoppedClauses_alike ts us hts l m
    have hmore := ih _ hc.rest
    rw [sentences, if_neg hend, if_neg hlad, if_neg hhvis, if_neg himens, if_pos hgive]
    exact ⟨.cons (.giveBack hc.value) hmore.value, hmore.rest, reports_append hc.reports hmore.reports⟩
  | case8 t ts hend hlad hhvis himens hgive c more ih =>
    rintro _ (_ | @⟨_, u, _, us, ht, hts⟩)
    rw [ht.kind, ht.reads_eq] at hend
    rw [ht.reads_eq] at hlad hhvis hgive
    rw [ht.reads_eq, ht.reads_eq] at himens
    have hc := stoppedClauses_alike (t :: ts) (u :: us) (.cons ht hts) l m
    have hmore := ih _ hc.rest
    rw [sentences, if_neg hend, if_neg hlad, if_neg hhvis, if_neg himens, if_neg hgive]
    exact ⟨.cons (.express hc.value) hmore.value, hmore.rest, reports_append hc.reports hmore.reports⟩

theorem block_alike : Reader.Alike SentencesAlike block block := by
  refine blockOpening_alike.bind fun _ _ _ => ?_
  refine Reader.Alike.bind (r := sentences) (s := sentences)
    (fun ts us hts l m => sentences_alike l m ts us hts) fun _ _ hbody => ?_
  refine blockClosing_alike.bind fun _ _ _ => ?_
  exact Reader.alike_pure hbody

/-! ## Definitions -/

/-- Positions of the same form, with like words. -/
inductive PatternPart.Alike : PatternPart → PatternPart → Prop
  | word {name name' : String} : WordAlike name name' → PatternPart.Alike (.word name) (.word name')
  | parameter {name name' typeName typeName' : String} : WordAlike name name' →
      WordAlike typeName typeName' →
      PatternPart.Alike (.parameter name typeName) (.parameter name' typeName')

/-- Patterns that are alike position by position. -/
def Pattern.Alike (p q : Pattern) : Prop :=
  List.Forall₂ PatternPart.Alike p.parts q.parts

/-- Definitions that are alike, wherever they are. -/
structure Definition.Alike (d e : Definition) : Prop where
  pattern : d.pattern.Alike e.pattern
  returnName : WordAlike d.returnName e.returnName
  body : SentencesAlike d.body e.body

/-- Documents that are alike definition by definition. -/
def Document.Alike (d e : Document) : Prop :=
  List.Forall₂ Definition.Alike d.definitions e.definitions

theorem PatternPart.Alike.refl (p : PatternPart) : p.Alike p := by
  cases p with
  | word name => exact .word (.refl name)
  | parameter name typeName => exact .parameter (.refl name) (.refl typeName)

theorem Pattern.Alike.refl (p : Pattern) : p.Alike p :=
  List.forall₂_same.2 fun part _ => .refl part

theorem parameter_alike : Reader.Alike PatternPart.Alike parameter parameter := by
  refine (expectKind_alike .word).bind fun name name' hname => ?_
  refine (expectKeyword_alike "som").bind fun _ _ _ => ?_
  refine (expectKind_alike .word).bind fun typeName typeName' htype => ?_
  refine (expectKind_alike .parenClose).bind fun _ _ _ => ?_
  exact Reader.alike_pure (.parameter hname.text htype.text)

theorem patternParts_alike (l m : Location) (ts : List Token) :
    ∀ us, TokensAlike ts us →
      (patternParts l ts).Alike (List.Forall₂ PatternPart.Alike) (patternParts m us) := by
  fun_induction patternParts l ts with
  | case1 =>
    intro us h
    cases h
    rw [patternParts]
    exact ⟨.nil, .nil, .nil⟩
  | case2 t ts hend =>
    rintro _ (_ | @⟨_, u, _, us, ht, hts⟩)
    rw [ht.reads_eq] at hend
    rw [patternParts, if_pos hend]
    exact ⟨.nil, .cons ht hts, .nil⟩
  | case3 t ts hend hword more ih =>
    rintro _ (_ | @⟨_, u, _, us, ht, hts⟩)
    rw [ht.reads_eq] at hend
    rw [ht.kind] at hword
    have hmore := ih us hts
    rw [patternParts, if_neg hend, if_pos hword]
    exact ⟨.cons (.word ht.text) hmore.value, hmore.rest, hmore.reports⟩
  | case4 t ts hend hword hopen p more ih =>
    rintro _ (_ | @⟨_, u, _, us, ht, hts⟩)
    rw [ht.reads_eq] at hend
    rw [ht.kind] at hword hopen
    have hp := parameter_alike ts us hts l m
    have hmore := ih _ hp.rest
    rw [patternParts, if_neg hend, if_neg hword, if_pos hopen]
    exact ⟨.cons hp.value hmore.value, hmore.rest, reports_append hp.reports hmore.reports⟩
  | case5 t ts hend hword hopen =>
    rintro _ (_ | @⟨_, u, _, us, ht, hts⟩)
    rw [ht.reads_eq] at hend
    rw [ht.kind] at hword hopen
    rw [patternParts, if_neg hend, if_neg hword, if_neg hopen]
    exact ⟨.nil, .cons ht hts, .nil⟩

theorem definition_alike : Reader.Alike Definition.Alike definition definition := by
  refine nextLocation_alike.bind fun _ _ _ => ?_
  refine Reader.Alike.bind (r := patternParts) (s := patternParts)
    (fun ts us hts l m => patternParts_alike l m ts us hts) fun _ _ hparts => ?_
  refine (expectKeyword_alike "tilbagegiver").bind fun _ _ _ => ?_
  refine (expectKind_alike .word).bind fun _ _ hreturn => ?_
  refine (expectKind_alike .dot).bind fun _ _ _ => ?_
  refine block_alike.bind fun _ _ hbody => ?_
  exact Reader.alike_pure ⟨hparts, hreturn.text, hbody⟩

theorem isEmpty_alike {r s : List Report} (h : List.Forall₂ Report.Alike r s) : r.isEmpty = s.isEmpty := by
  cases h <;> rfl

theorem readDefinitions_alike (l m : Location) (ts : List Token) :
    ∀ us, TokensAlike ts us →
      (readDefinitions l ts).Alike (List.Forall₂ Definition.Alike) (readDefinitions m us) := by
  fun_induction readDefinitions l ts with
  | case1 =>
    intro us h
    cases h
    rw [readDefinitions]
    exact ⟨.nil, .nil, .nil⟩
  | case2 t ts hend =>
    rintro _ (_ | @⟨_, u, _, us, ht, hts⟩)
    rw [ht.kind] at hend
    rw [readDefinitions, if_pos hend]
    exact ⟨.nil, .cons ht hts, .nil⟩
  | case3 t ts hend reports hfun d hempty more ih =>
    rintro _ (_ | @⟨_, u, _, us, ht, hts⟩)
    have hreports := (expectKeyword_alike "offentlig" _ _ (.cons ht hts) l m).reports
    have hd := definition_alike _ _ (TokensAlike.tail hts) l m
    have hmore := ih _ hd.rest
    rw [ht.kind] at hend
    rw [TokensAlike.nextReads_eq hts] at hfun
    rw [isEmpty_alike (reports_append hreports hd.reports)] at hempty
    rw [readDefinitions, if_neg hend]
    simp only [if_pos hfun, if_pos hempty]
    exact ⟨.cons hd.value hmore.value, hmore.rest, hmore.reports⟩
  | case4 t ts hend reports hfun d hne =>
    rintro _ (_ | @⟨_, u, _, us, ht, hts⟩)
    have hreports := (expectKeyword_alike "offentlig" _ _ (.cons ht hts) l m).reports
    have hd := definition_alike _ _ (TokensAlike.tail hts) l m
    rw [ht.kind] at hend
    rw [TokensAlike.nextReads_eq hts] at hfun
    rw [isEmpty_alike (reports_append hreports hd.reports)] at hne
    rw [readDefinitions, if_neg hend]
    simp only [if_pos hfun, if_neg hne]
    exact ⟨.cons hd.value .nil, hd.rest, reports_append hreports hd.reports⟩
  | case5 t ts hend reports hfun hempty more ih =>
    rintro _ (_ | @⟨_, u, _, us, ht, hts⟩)
    have hreports := (expectKeyword_alike "offentlig" _ _ (.cons ht hts) l m).reports
    have hmore := ih _ hts
    rw [ht.kind] at hend
    rw [TokensAlike.nextReads_eq hts] at hfun
    rw [isEmpty_alike hreports] at hempty
    rw [readDefinitions, if_neg hend]
    simp only [if_neg hfun, if_pos hempty]
    exact ⟨hmore.value, hmore.rest, hmore.reports⟩
  | case6 t ts hend reports hfun hne =>
    rintro _ (_ | @⟨_, u, _, us, ht, hts⟩)
    have hreports := (expectKeyword_alike "offentlig" _ _ (.cons ht hts) l m).reports
    rw [ht.kind] at hend
    rw [TokensAlike.nextReads_eq hts] at hfun
    rw [isEmpty_alike hreports] at hne
    rw [readDefinitions, if_neg hend]
    simp only [if_neg hfun, if_neg hne]
    exact ⟨.nil, hts, hreports⟩

/-! ## Documents -/

theorem withoutComments_alike {ts us : List Token} (h : TokensAlike ts us) :
    TokensAlike (ts.filter (·.kind ≠ .comment)) (us.filter (·.kind ≠ .comment)) := by
  induction h with
  | nil => exact .nil
  | cons ht _ ih =>
    simp only [List.filter_cons, ht.kind]
    split_ifs
    · exact .cons ht ih
    · exact ih

/-- **Like tokens are read as like documents, with like reports.** -/
theorem ofTokens_alike (clean : Bool) {ts us : List Token} (h : TokensAlike ts us) :
    (Document.ofTokens clean ts).1.Alike (Document.ofTokens clean us).1 ∧
      List.Forall₂ Report.Alike (Document.ofTokens clean ts).2 (Document.ofTokens clean us).2 := by
  cases clean with
  | false => exact ⟨.nil, .nil⟩
  | true =>
    have hread := readDefinitions_alike (lastLocation ts) (lastLocation us) _ _ (withoutComments_alike h)
    exact ⟨hread.value, hread.reports⟩

end DanishProse

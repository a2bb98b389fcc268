/-
  Where the places and the names in reports come from.

  * `Reader.Draws`: a reader that takes tokens at places with a property `P` gives
    back such places only, in its value and in its reports, whatever it has to
    report;
  * no name that is read has a dollar sign in it (`Undollared`), so that no message
    has one until the document is looked up (`ofTokens_from`);
  * looking up adds no place of its own, and names no type with a dollar sign
    (`lookupClauses_from`, `checkSentences_from`, `ofDocument_from`);
  * `reports_from` puts this together for all reports on a source.
-/
import DanishProse.Proofs.Checking
import DanishProse.Proofs.Tiling

namespace DanishProse

/-! ## Names -/

/-- A text without a dollar sign.  The names of the two marks among the types have
    one, and nothing that is read has. -/
def Undollared (text : String) : Prop :=
  '$' ∉ text.toList

instance (text : String) : Decidable (Undollared text) :=
  inferInstanceAs (Decidable ('$' ∉ text.toList))

theorem undollared_append {a b : String} : Undollared (a ++ b) ↔ Undollared a ∧ Undollared b := by
  rw [Undollared, String.toList_append, List.mem_append, not_or]
  rfl

theorem undollared_joined {separator : String} {texts : List String} (hs : Undollared separator)
    (h : ∀ text ∈ texts, Undollared text) : Undollared (Text.joined separator texts) := by
  rcases texts with _ | ⟨text, texts⟩
  · exact (by decide : Undollared "")
  · unfold Text.joined
    induction texts generalizing text with
    | nil =>
      rw [String.intercalate_singleton]
      exact h text (by simp)
    | cons text' texts ih =>
      obtain ⟨htext, h⟩ := List.forall_mem_cons.1 h
      rw [String.intercalate_cons_cons]
      exact undollared_append.2 ⟨undollared_append.2 ⟨htext, hs⟩, ih text' h⟩

theorem undollared_kind (kind : TokenKind) : Undollared kind.name := by
  cases kind with
  | literal _ => exact (by decide : Undollared "literal")
  | _ => decide

theorem undollared_unexpectedToken {wanted given : String} (hw : Undollared wanted) (hg : Undollared given) :
    Undollared (Problem.unexpectedToken wanted given).message := by
  have hfirst : Undollared "Unexpected token\n    Wanted: " := by decide
  have hsecond : Undollared "\n    Given:  " := by decide
  exact undollared_append.2 ⟨undollared_append.2 ⟨undollared_append.2 ⟨hfirst, hw⟩, hsecond⟩, hg⟩

/-! ## What is read -/

section
variable (P : Location → Prop)

/-- A token at a place with a property, without a dollar sign. -/
structure Token.From (t : Token) : Prop where
  place : P t.location
  text : Undollared t.text

/-- A report at a place with a property, without a dollar sign in its message. -/
structure Report.From (r : Report) : Prop where
  place : P r.location
  message : Undollared r.problem.message

mutual

/-- The clauses in a part begin at places with a property, and its words are without a
    dollar sign. -/
def Part.From : Part → Prop
  | .word w => Undollared w
  | .literal _ => True
  | .list cs => ClausesFrom cs
termination_by structural p => p

/-- A clause that begins at a place with a property, as the clauses in it do. -/
def Clause.From : Clause → Prop
  | .mk l ps => P l ∧ PartsFrom ps
termination_by structural c => c

/-- All parts are from such places. -/
def PartsFrom : List Part → Prop
  | [] => True
  | p :: ps => p.From ∧ PartsFrom ps
termination_by structural ps => ps

/-- All clauses are from such places. -/
def ClausesFrom : List Clause → Prop
  | [] => True
  | c :: cs => c.From ∧ ClausesFrom cs
termination_by structural cs => cs

end

mutual

/-- The places in a sentence have a property, and its names no dollar sign. -/
def Sentence.From : Sentence → Prop
  | .declare name typeName l => Undollared name ∧ Undollared typeName ∧ P l
  | .express cs => ClausesFrom P cs
  | .giveBack cs => ClausesFrom P cs
  | .when cs body => ClausesFrom P cs ∧ SentencesFrom body
  | .whenElse cs body otherwise => ClausesFrom P cs ∧ SentencesFrom body ∧ SentencesFrom otherwise
  | .loop cs body => ClausesFrom P cs ∧ SentencesFrom body
termination_by structural s => s

/-- All sentences are from such places. -/
def SentencesFrom : List Sentence → Prop
  | [] => True
  | s :: ss => s.From ∧ SentencesFrom ss
termination_by structural ss => ss

end

/-- The names in a position of a pattern have no dollar sign. -/
structure PatternPart.Plain (p : PatternPart) : Prop where
  name : Undollared p.name
  typeName : ∀ typeName, p.typeName? = some typeName → Undollared typeName

/-- The places in a definition have a property, and its names no dollar sign. -/
structure Definition.From (d : Definition) : Prop where
  parts : ∀ p ∈ d.pattern.parts, p.Plain
  returnName : Undollared d.returnName
  body : SentencesFrom P d.body
  place : P d.location

end

section
variable {P : Location → Prop}

theorem ClausesFrom.append {cs ds : List Clause} (hcs : ClausesFrom P cs) (hds : ClausesFrom P ds) :
    ClausesFrom P (cs ++ ds) := by
  induction cs with
  | nil => exact hds
  | cons c cs ih => exact ⟨hcs.1, ih hcs.2⟩

/-! ## Pronouns -/

mutual

theorem resolveFrom_from : ∀ {cs done : List Clause}, ClausesFrom P done → ClausesFrom P cs →
    ClausesFrom P (resolveFrom done cs)
  | [], _, hdone, _ => hdone
  | c :: cs, done, hdone, hcs => by
    rw [resolveFrom]
    exact resolveFrom_from (resolveAfter_from hdone hcs.1) hcs.2

theorem resolveAfter_from : ∀ {c : Clause} {done : List Clause}, ClausesFrom P done → c.From P →
    ClausesFrom P (c.resolveAfter done)
  | .mk l ps, done, hdone, hc => by
    obtain ⟨hvalue, hantecedent⟩ := resolveParts_from hdone hc.2
    exact hantecedent.append ⟨⟨hc.1, hvalue⟩, trivial⟩

theorem resolveParts_from : ∀ {ps : List Part} {antecedent : List Clause}, ClausesFrom P antecedent →
    PartsFrom P ps →
      PartsFrom P (resolveParts antecedent ps).value ∧ ClausesFrom P (resolveParts antecedent ps).antecedent
  | [], _, ha, _ => ⟨trivial, ha⟩
  | p :: ps, antecedent, ha, hps => by
    obtain ⟨hp, hpa⟩ := Part.resolve_from ha hps.1
    obtain ⟨hr, hra⟩ := resolveParts_from hpa hps.2
    exact ⟨⟨hp, hr⟩, hra⟩

theorem Part.resolve_from : ∀ {p : Part} {antecedent : List Clause}, ClausesFrom P antecedent → p.From P →
    (p.resolve antecedent).value.From P ∧ ClausesFrom P (p.resolve antecedent).antecedent
  | .word w, antecedent, ha, hp => by
    rw [Part.resolve]
    split_ifs
    · exact ⟨ha, trivial⟩
    · exact ⟨hp, ha⟩
  | .literal _, _, ha, _ => ⟨trivial, ha⟩
  | .list _, _, ha, hp => ⟨resolveFrom_from trivial hp, ha⟩

end

/-! ## Readers -/

/-- What a reading gives has a property, and what it leaves and reports is from places
    with a property. -/
structure Reading.Draws {α : Type} {ts : List Token} (P : Location → Prop) (Q : α → Prop) (r : Reading ts α) :
    Prop where
  value : Q r.value
  rest : ∀ t ∈ r.rest, t.From P
  reports : ∀ s ∈ r.reports, s.From P

/-- A reader that draws on nothing but its tokens and the end of input. -/
def Reader.Draws {α : Type} (P : Location → Prop) (Q : α → Prop) (r : Reader α) : Prop :=
  ∀ (ending : Location), P ending → ∀ (ts : List Token), (∀ t ∈ ts, t.From P) → (r ending ts).Draws P Q

theorem Reader.draws_pure {α : Type} {a : α} {Q : α → Prop} (h : Q a) : (pure a : Reader α).Draws P Q :=
  fun _ _ _ hts => ⟨h, hts, List.forall_mem_nil _⟩

theorem Reader.Draws.bind {α β : Type} {r : Reader α} {f : α → Reader β} {Q : α → Prop} {R : β → Prop}
    (hr : r.Draws P Q) (hf : ∀ a, Q a → (f a).Draws P R) : (r >>= f).Draws P R := by
  intro ending hend ts hts
  have ha := hr ending hend ts hts
  have hb := hf _ ha.value ending hend _ ha.rest
  exact ⟨hb.value, hb.rest, List.forall_mem_append.2 ⟨ha.reports, hb.reports⟩⟩

section
variable {ending : Location} (hend : P ending) {ts : List Token} (hts : ∀ t ∈ ts, t.From P)
include hts

theorem tail_from : ∀ t ∈ ts.tail, t.From P :=
  fun t ht => hts t (List.mem_of_mem_tail ht)

theorem dropKeyword_from (keyword : String) : ∀ t ∈ dropKeyword keyword ts, t.From P := by
  unfold dropKeyword
  split_ifs
  · exact tail_from hts
  · exact hts

include hend

theorem nextToken_from : (nextToken ending ts).From P := by
  cases ts with
  | nil => exact ⟨hend, (by decide : Undollared "")⟩
  | cons t ts => exact hts t List.mem_cons_self

theorem emptyClause_from : ∀ s ∈ emptyClause ending ts, s.From P := by
  unfold emptyClause
  dsimp only
  split_ifs
  · exact List.forall_mem_nil _
  · exact List.forall_mem_singleton.2
      ⟨(nextToken_from hend hts).place, (by decide : Undollared "Expected clause")⟩

end

theorem expectKind_draws (kind : TokenKind) : (expectKind kind).Draws P (Token.From P) := by
  intro ending hend ts hts
  have hnext := nextToken_from hend hts
  refine ⟨hnext, tail_from hts, ?_⟩
  unfold expectKind
  dsimp only
  split_ifs
  · exact List.forall_mem_nil _
  · exact List.forall_mem_singleton.2
      ⟨hnext.place, undollared_unexpectedToken (undollared_kind _) (undollared_kind _)⟩

theorem expectKeyword_draws {keyword : String} (hkeyword : Undollared keyword) :
    (expectKeyword keyword).Draws P fun _ => True := by
  intro ending hend ts hts
  have hnext := nextToken_from hend hts
  refine ⟨trivial, tail_from hts, ?_⟩
  unfold expectKeyword
  dsimp only
  split_ifs
  · exact List.forall_mem_nil _
  · exact List.forall_mem_singleton.2 ⟨hnext.place, undollared_unexpectedToken hkeyword hnext.text⟩
  · exact List.forall_mem_singleton.2 ⟨hnext.place, undollared_unexpectedToken hkeyword (undollared_kind _)⟩

theorem optionalKeyword_draws (keyword : String) : (optionalKeyword keyword).Draws P fun _ => True :=
  fun _ _ _ hts => ⟨trivial, dropKeyword_from hts keyword, List.forall_mem_nil _⟩

theorem nextLocation_draws : nextLocation.Draws P P :=
  fun _ hend _ hts => ⟨(nextToken_from hend hts).place, hts, List.forall_mem_nil _⟩

/-! ## Clauses -/

/-- The rest of a clause and the clauses after it are from such places. -/
structure ClauseRun.From (P : Location → Prop) (r : ClauseRun) : Prop where
  parts : PartsFrom P r.parts
  others : ClausesFrom P r.others

theorem ClauseRun.From.push {r : ClauseRun} {p : Part} (h : r.From P) (hp : p.From P) : (r.push p).From P :=
  ⟨⟨hp, h.parts⟩, h.others⟩

theorem ClauseRun.From.clauses {r : ClauseRun} (h : r.From P) {l : Location} (hl : P l) :
    ClausesFrom P (r.clauses l) :=
  ⟨⟨hl, h.parts⟩, h.others⟩

theorem clauseRun_draws : Reader.Draws P (ClauseRun.From P) clauseRun := by
  intro ending hend ts hts
  fun_induction clauseRun ending ts with
  | case1 => exact ⟨⟨trivial, trivial⟩, hts, List.forall_mem_nil _⟩
  | case2 t us hk r ih =>
    have hr := ih (tail_from hts)
    exact ⟨hr.value.push (hts t List.mem_cons_self).text, hr.rest, hr.reports⟩
  | case3 t us v hk r ih =>
    have hr := ih (tail_from hts)
    exact ⟨hr.value.push trivial, hr.rest, hr.reports⟩
  | case4 t us hk inner close r ihInner ihRest =>
    have hus := tail_from hts
    have hinner := ihInner hus
    have hclose := expectKind_draws .parenClose ending hend inner.rest hinner.rest
    have hr := ihRest hclose.rest
    refine ⟨hr.value.push (hinner.value.clauses (nextToken_from hend hus).place), hr.rest, ?_⟩
    simp only [List.forall_mem_append]
    exact ⟨⟨⟨emptyClause_from hend hus, hinner.reports⟩, hclose.reports⟩, hr.reports⟩
  | case5 t us hk vs r ih =>
    have hvs := dropKeyword_from (tail_from hts) "og"
    have hr := ih hvs
    refine ⟨⟨trivial, hr.value.clauses (nextToken_from hend hvs).place⟩, hr.rest, ?_⟩
    exact List.forall_mem_append.2 ⟨emptyClause_from hend hvs, hr.reports⟩
  | case6 => exact ⟨⟨trivial, trivial⟩, hts, List.forall_mem_nil _⟩

theorem clauseList_draws : clauseList.Draws P (ClausesFrom P) := by
  intro ending hend ts hts
  have hr := clauseRun_draws ending hend ts hts
  refine ⟨hr.value.clauses (nextToken_from hend hts).place, hr.rest, ?_⟩
  exact List.forall_mem_append.2 ⟨emptyClause_from hend hts, hr.reports⟩

theorem stoppedClauses_draws : stoppedClauses.Draws P (ClausesFrom P) := by
  refine clauseList_draws.bind fun cs hcs => ?_
  refine (expectKind_draws .dot).bind fun _ _ => ?_
  exact Reader.draws_pure (resolveFrom_from trivial hcs)

/-! ## Sentences -/

theorem blockOpening_draws : blockOpening.Draws P fun _ => True := by
  refine (expectKeyword_draws (by decide)).bind fun _ _ => ?_
  refine (expectKind_draws .dot).bind fun _ _ => ?_
  exact Reader.draws_pure trivial

theorem blockClosing_draws : blockClosing.Draws P fun _ => True := by
  refine (expectKeyword_draws (by decide)).bind fun _ _ => ?_
  refine (expectKind_draws .dot).bind fun _ _ => ?_
  exact Reader.draws_pure trivial

theorem condition_draws : condition.Draws P (ClausesFrom P) := by
  refine stoppedClauses_draws.bind fun cs hcs => ?_
  refine blockOpening_draws.bind fun _ _ => ?_
  exact Reader.draws_pure hcs

theorem otherwiseOpening_draws : otherwiseOpening.Draws P fun _ => True :=
  (expectKind_draws .dot).bind fun _ _ => blockOpening_draws

theorem declaration_draws : declaration.Draws P (Sentence.From P) := by
  refine (expectKind_draws .word).bind fun name hname => ?_
  refine (expectKeyword_draws (by decide)).bind fun _ _ => ?_
  refine (optionalKeyword_draws "en").bind fun _ _ => ?_
  refine (optionalKeyword_draws "et").bind fun _ _ => ?_
  refine (expectKind_draws .word).bind fun typeName htype => ?_
  refine (expectKind_draws .dot).bind fun _ _ => ?_
  exact Reader.draws_pure ⟨hname.text, htype.text, hname.place⟩

theorem sentences_draws : Reader.Draws P (SentencesFrom P) sentences := by
  intro ending hend ts hts
  fun_induction sentences ending ts with
  | case1 => exact ⟨trivial, hts, List.forall_mem_nil _⟩
  | case2 => exact ⟨trivial, hts, List.forall_mem_nil _⟩
  | case3 t us _ _ d more ih =>
    have hd := declaration_draws ending hend us (tail_from hts)
    have hmore := ih hd.rest
    exact ⟨⟨hd.value, hmore.value⟩, hmore.rest, List.forall_mem_append.2 ⟨hd.reports, hmore.reports⟩⟩
  | case4 t us _ _ _ c body close _ o other close₂ more ihBody _ ihOther _ ihMore =>
    have hc := condition_draws ending hend us (tail_from hts)
    have hbody := ihBody hc.rest
    have hclose := blockClosing_draws ending hend body.rest hbody.rest
    have ho := otherwiseOpening_draws ending hend close.rest.tail (tail_from hclose.rest)
    have hother := ihOther ho.rest
    have hclose₂ := blockClosing_draws ending hend other.rest hother.rest
    have hmore := ihMore hclose₂.rest
    refine ⟨⟨⟨hc.value, hbody.value, hother.value⟩, hmore.value⟩, hmore.rest, ?_⟩
    simp only [List.forall_mem_append]
    exact ⟨⟨⟨⟨⟨⟨hc.reports, hbody.reports⟩, hclose.reports⟩, ho.reports⟩, hother.reports⟩,
      hclose₂.reports⟩, hmore.reports⟩
  | case5 t us _ _ _ c body close _ more ihBody _ ihMore =>
    have hc := condition_draws ending hend us (tail_from hts)
    have hbody := ihBody hc.rest
    have hclose := blockClosing_draws ending hend body.rest hbody.rest
    have hmore := ihMore hclose.rest
    refine ⟨⟨⟨hc.value, hbody.value⟩, hmore.value⟩, hmore.rest, ?_⟩
    simp only [List.forall_mem_append]
    exact ⟨⟨⟨hc.reports, hbody.reports⟩, hclose.reports⟩, hmore.reports⟩
  | case6 t us _ _ _ _ c body close more ihBody _ ihMore =>
    have hc := condition_draws ending hend us (tail_from hts)
    have hbody := ihBody hc.rest
    have hclose := blockClosing_draws ending hend body.rest hbody.rest
    have hmore := ihMore hclose.rest
    refine ⟨⟨⟨hc.value, hbody.value⟩, hmore.value⟩, hmore.rest, ?_⟩
    simp only [List.forall_mem_append]
    exact ⟨⟨⟨hc.reports, hbody.reports⟩, hclose.reports⟩, hmore.reports⟩
  | case7 t us _ _ _ _ _ c more ih =>
    have hc := stoppedClauses_draws ending hend us (tail_from hts)
    have hmore := ih hc.rest
    exact ⟨⟨hc.value, hmore.value⟩, hmore.rest, List.forall_mem_append.2 ⟨hc.reports, hmore.reports⟩⟩
  | case8 t us _ _ _ _ _ c more ih =>
    have hc := stoppedClauses_draws ending hend (t :: us) hts
    have hmore := ih hc.rest
    exact ⟨⟨hc.value, hmore.value⟩, hmore.rest, List.forall_mem_append.2 ⟨hc.reports, hmore.reports⟩⟩

theorem block_draws : block.Draws P (SentencesFrom P) := by
  refine blockOpening_draws.bind fun _ _ => ?_
  refine Reader.Draws.bind (r := sentences) sentences_draws fun body hbody => ?_
  refine blockClosing_draws.bind fun _ _ => ?_
  exact Reader.draws_pure hbody

/-! ## Definitions -/

theorem parameter_draws : parameter.Draws P PatternPart.Plain := by
  refine (expectKind_draws .word).bind fun name hname => ?_
  refine (expectKeyword_draws (by decide)).bind fun _ _ => ?_
  refine (expectKind_draws .word).bind fun typeName htype => ?_
  refine (expectKind_draws .parenClose).bind fun _ _ => ?_
  refine Reader.draws_pure ⟨hname.text, ?_⟩
  rintro _ ⟨⟩
  exact htype.text

theorem patternParts_draws : Reader.Draws P (fun ps : List PatternPart => ∀ p ∈ ps, p.Plain) patternParts := by
  intro ending hend ts hts
  fun_induction patternParts ending ts with
  | case1 => exact ⟨by simp, hts, List.forall_mem_nil _⟩
  | case2 => exact ⟨by simp, hts, List.forall_mem_nil _⟩
  | case3 t us _ _ more ih =>
    have hmore := ih (tail_from hts)
    have hword : (PatternPart.word t.text).Plain := by
      refine ⟨(hts t List.mem_cons_self).text, ?_⟩
      rintro _ ⟨⟩
    exact ⟨List.forall_mem_cons.2 ⟨hword, hmore.value⟩, hmore.rest, hmore.reports⟩
  | case4 t us _ _ _ p more ih =>
    have hp := parameter_draws ending hend us (tail_from hts)
    have hmore := ih hp.rest
    exact ⟨List.forall_mem_cons.2 ⟨hp.value, hmore.value⟩, hmore.rest,
      List.forall_mem_append.2 ⟨hp.reports, hmore.reports⟩⟩
  | case5 => exact ⟨by simp, hts, List.forall_mem_nil _⟩

theorem definition_draws : definition.Draws P (Definition.From P) := by
  refine nextLocation_draws.bind fun location hlocation => ?_
  refine Reader.Draws.bind (r := patternParts) patternParts_draws fun ps hps => ?_
  refine (expectKeyword_draws (by decide)).bind fun _ _ => ?_
  refine (expectKind_draws .word).bind fun returnName hreturn => ?_
  refine (expectKind_draws .dot).bind fun _ _ => ?_
  refine block_draws.bind fun body hbody => ?_
  exact Reader.draws_pure ⟨hps, hreturn.text, hbody, hlocation⟩

theorem readDefinitions_draws :
    Reader.Draws P (fun ds : List Definition => ∀ d ∈ ds, d.From P) readDefinitions := by
  intro ending hend ts hts
  fun_induction readDefinitions ending ts with
  | case1 => exact ⟨by simp, hts, List.forall_mem_nil _⟩
  | case2 => exact ⟨by simp, hts, List.forall_mem_nil _⟩
  | case3 t us _ reports _ d _ more ih =>
    have hd := definition_draws ending hend us.tail (tail_from (tail_from hts))
    have hmore := ih hd.rest
    exact ⟨List.forall_mem_cons.2 ⟨hd.value, hmore.value⟩, hmore.rest, hmore.reports⟩
  | case4 t us _ reports _ d _ =>
    have hfirst := (expectKeyword_draws (by decide : Undollared "offentlig") ending hend (t :: us) hts).reports
    have hd := definition_draws ending hend us.tail (tail_from (tail_from hts))
    exact ⟨List.forall_mem_singleton.2 hd.value, hd.rest, List.forall_mem_append.2 ⟨hfirst, hd.reports⟩⟩
  | case5 t us _ reports _ _ more ih =>
    have hmore := ih (tail_from hts)
    exact ⟨hmore.value, hmore.rest, hmore.reports⟩
  | case6 t us _ reports _ _ =>
    have hfirst := (expectKeyword_draws (by decide : Undollared "offentlig") ending hend (t :: us) hts).reports
    exact ⟨by simp, tail_from hts, hfirst⟩

/-- **A document draws on nothing but its tokens**, in what it says and in what is
    reported on it. -/
theorem ofTokens_from {clean : Bool} {ts : List Token} (hend : P (lastLocation ts))
    (hts : ∀ t ∈ ts, t.kind ≠ .comment → t.From P) :
    (∀ d ∈ (Document.ofTokens clean ts).1.definitions, d.From P) ∧
      ∀ s ∈ (Document.ofTokens clean ts).2, s.From P := by
  cases clean with
  | false => exact ⟨List.forall_mem_nil _, List.forall_mem_nil _⟩
  | true =>
    have hread : ∀ t ∈ ts.filter (·.kind ≠ .comment), t.From P := by
      intro t ht
      obtain ⟨hmem, hkind⟩ := List.mem_filter.1 ht
      exact hts t hmem (of_decide_eq_true hkind)
    have hr := readDefinitions_draws _ hend _ hread
    exact ⟨hr.value, hr.reports⟩

end

end DanishProse

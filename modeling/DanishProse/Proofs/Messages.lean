/-
  What is reported on a document when it is looked up.

  * No value, local or result has the wildcard as its type, and a message only names
    types of values that were resolved, so no message has a dollar sign;
  * a report is placed where a clause, a declaration or a definition begins
    (`lookupClauses_draws`, `checkSentences_draws`, `ofDocument_draws`);
  * `reports_from`: all reports on a source are at places of its tokens and pieces, and
    none of their messages has a dollar sign.
-/
import DanishProse.Proofs.Placement
import DanishProse.Proofs.Provenance

namespace DanishProse

/-! ## Checks -/

/-- What is checked has a property, and all reports are from places with a property. -/
structure Checked.Draws {α : Type} (P : Location → Prop) (Q : α → Prop) (c : Checked α) : Prop where
  value : Q c.value
  reports : ∀ r ∈ c.reports, r.From P

section
variable {P : Location → Prop}

namespace Checked
variable {α β : Type} {Q : α → Prop} {R : β → Prop}

theorem draws_pure {a : α} (h : Q a) : (pure a : Checked α).Draws P Q :=
  ⟨h, List.forall_mem_nil _⟩

theorem Draws.bind {c : Checked α} {f : α → Checked β} (hc : c.Draws P Q) (hf : ∀ a, Q a → (f a).Draws P R) :
    (c >>= f).Draws P R :=
  ⟨(hf _ hc.value).value, List.forall_mem_append.2 ⟨hc.reports, (hf _ hc.value).reports⟩⟩

theorem draws_report {problem : Problem} {l : Location} (hl : P l) (h : Undollared problem.message) :
    (report problem l).Draws P fun _ => True :=
  ⟨trivial, List.forall_mem_singleton.2 ⟨hl, h⟩⟩

end Checked

/-! ## Types -/

theorem Ty.undollared_name {ty : Ty} (hany : ty ≠ .any) (hnone : ty ≠ .none) : Undollared ty.name := by
  cases ty with
  | any => exact absurd rfl hany
  | none => exact absurd rfl hnone
  | _ => decide

/-- No word names the wildcard. -/
theorem lookupType_draws {name : String} {l : Location} (hword : StartsWord name) (hname : Undollared name)
    (hl : P l) : (lookupType name l).Draws P (· ≠ .any) := by
  unfold lookupType
  cases hn : Ty.named? name with
  | some ty =>
    refine Checked.draws_pure ?_
    rcases Ty.isValue_of_startsWord hword hn with rfl | rfl | rfl <;> decide
  | none =>
    have hmessage : Undollared (Problem.unresolvedType name).message :=
      undollared_append.2 ⟨by decide, hname⟩
    exact (Checked.draws_report hl hmessage).bind fun _ _ => Checked.draws_pure (by decide)

/-! ## Clauses -/

/-- A position of a clause: a word without a dollar sign, or a value that is not of the
    wildcard type. -/
def Term.Plain : Term → Prop
  | .word text => Undollared text
  | .argument value => value.type ≠ .any

theorem Term.Plain.text {t : Term} (h : t.Plain) (hsome : ∀ e, t.argument? = some e → e.type ≠ .none) :
    Undollared t.wanted.text := by
  cases t with
  | word text => exact h
  | argument value =>
    have hname := Ty.undollared_name h (hsome value rfl)
    exact undollared_append.2 ⟨undollared_append.2 ⟨by decide, hname⟩, by decide⟩

theorem assign_draws {value target : Expression} {l : Location} (hl : P l) (hv : value.type ≠ .any)
    (ht : target.type ≠ .any) : (assign value target l).Draws P fun e => e.type ≠ .any := by
  cases target with
  | read slot ty =>
    unfold assign
    dsimp only
    split_ifs with hcond
    · have hmessage : Undollared (Problem.typeMismatch ty.name value.type.name).message :=
        undollared_append.2 ⟨undollared_append.2 ⟨undollared_append.2
          ⟨by decide, Ty.undollared_name ht hcond.2.2⟩, by decide⟩, Ty.undollared_name hv hcond.2.1⟩
      exact (Checked.draws_report hl hmessage).bind fun _ _ => Checked.draws_pure nofun
    · exact Checked.draws_pure nofun
  | _ =>
    have hmessage : Undollared Problem.invalidAssignmentTarget.message := by decide
    exact (Checked.draws_report hl hmessage).bind fun _ _ => Checked.draws_pure nofun

theorem sequenceOf_type_ne {es : List Expression} (h : ∀ e ∈ es, e.type ≠ .any) :
    (sequenceOf es).type ≠ .any := by
  match es with
  | [] => decide
  | [e] => exact h e (by simp)
  | d :: e :: es =>
    have hlast := h _ (List.getLast_mem (List.cons_ne_nil d (e :: es)))
    change (((d :: e :: es).getLast?.map Expression.type).getD .none) ≠ .any
    rwa [List.getLast?_eq_some_getLast (List.cons_ne_nil _ _)]

section
variable {fs : List Function} {locals : List Local}

theorem callFirst_draws (hf : ∀ f ∈ fs, f.returnType ≠ .any) {ts : List Term} {l : Location} (hl : P l)
    (hts : ∀ t ∈ ts, t.Plain) (hsome : ∀ e ∈ ts.filterMap Term.argument?, e.type ≠ .none) :
    (callFirst fs (ts.map Term.wanted) (ts.filterMap Term.argument?) l).Draws P fun e => e.type ≠ .any := by
  have hargs : ∀ e ∈ ts.filterMap Term.argument?, e.type ≠ .any := by
    intro e he
    obtain ⟨t, ht, heq⟩ := List.mem_filterMap.1 he
    cases t with
    | word _ => cases heq
    | argument value =>
      cases heq
      exact hts _ ht
  unfold callFirst
  cases hlookup : lookupFunction fs (ts.map Term.wanted) with
  | none =>
    have htexts : ∀ text ∈ (ts.map Term.wanted).map Wanted.text, Undollared text := by
      rw [List.map_map, List.forall_mem_map]
      exact fun t ht => (hts t ht).text fun e he => hsome e (List.mem_filterMap.2 ⟨t, ht, he⟩)
    have hmessage : Undollared (Problem.unresolvedFunction
        (Text.joined " " ((ts.map Term.wanted).map Wanted.text))).message :=
      undollared_append.2 ⟨by decide, undollared_joined (by decide) htexts⟩
    exact (Checked.draws_report hl hmessage).bind fun _ _ => Checked.draws_pure nofun
  | some found =>
    obtain ⟨f, index⟩ := found
    dsimp only
    split
    · next value target _ hpair =>
      rw [hpair] at hargs
      exact assign_draws hl (hargs value (by simp)) (hargs target (by simp))
    · exact Checked.draws_pure (hf f (List.mem_of_getElem? (lookupFunction_spec hlookup).1))

theorem resolveTerms_draws (hf : ∀ f ∈ fs, f.returnType ≠ .any) {ts : List Term} {l : Location} (hl : P l)
    (hts : ∀ t ∈ ts, t.Plain) : (resolveTerms fs ts l).Draws P fun e => e.type ≠ .any := by
  unfold resolveTerms
  dsimp only
  split
  · exact Checked.draws_pure nofun
  · next value => exact Checked.draws_pure (hts (.argument value) (by simp))
  · split_ifs with hnone
    · exact Checked.draws_pure nofun
    · refine callFirst_draws hf hl hts fun e he htype => hnone ?_
      exact List.any_eq_true.2 ⟨e, he, decide_eq_true htype⟩

mutual

theorem Part.lookup_draws (hf : ∀ f ∈ fs, f.returnType ≠ .any) (hl : ∀ l ∈ locals, l.type ≠ .any) :
    ∀ {p : Part}, p.From P → (p.lookup fs locals).Draws P Term.Plain
  | .word text, hp => by
    rw [Part.lookup]
    split
    · next l hfound => exact Checked.draws_pure (hl l (List.mem_of_find?_eq_some hfound))
    · exact Checked.draws_pure hp
  | .literal v, _ => by
    refine Checked.draws_pure ?_
    cases v <;> exact nofun
  | .list cs, hp => by
    rw [Part.lookup]
    exact (lookupEach_draws hf hl hp).bind fun es hes => Checked.draws_pure (sequenceOf_type_ne hes)

theorem lookupParts_draws (hf : ∀ f ∈ fs, f.returnType ≠ .any) (hl : ∀ l ∈ locals, l.type ≠ .any) :
    ∀ {ps : List Part}, PartsFrom P ps → (lookupParts fs locals ps).Draws P fun ts => ∀ t ∈ ts, t.Plain
  | [], _ => Checked.draws_pure (List.forall_mem_nil _)
  | p :: ps, hps => by
    rw [lookupParts]
    refine (Part.lookup_draws hf hl hps.1).bind fun t ht => ?_
    refine (lookupParts_draws hf hl hps.2).bind fun ts hts => ?_
    exact Checked.draws_pure (List.forall_mem_cons.2 ⟨ht, hts⟩)

theorem Clause.lookup_draws (hf : ∀ f ∈ fs, f.returnType ≠ .any) (hl : ∀ l ∈ locals, l.type ≠ .any) :
    ∀ {c : Clause}, c.From P → (c.lookup fs locals).Draws P fun e => e.type ≠ .any
  | .mk l ps, hc => by
    rw [Clause.lookup]
    exact (lookupParts_draws hf hl hc.2).bind fun ts hts => resolveTerms_draws hf hc.1 hts

theorem lookupEach_draws (hf : ∀ f ∈ fs, f.returnType ≠ .any) (hl : ∀ l ∈ locals, l.type ≠ .any) :
    ∀ {cs : List Clause}, ClausesFrom P cs → (lookupEach fs locals cs).Draws P fun es => ∀ e ∈ es, e.type ≠ .any
  | [], _ => Checked.draws_pure (List.forall_mem_nil _)
  | c :: cs, hcs => by
    rw [lookupEach]
    refine (Clause.lookup_draws hf hl hcs.1).bind fun e he => ?_
    refine (lookupEach_draws hf hl hcs.2).bind fun es hes => ?_
    exact Checked.draws_pure (List.forall_mem_cons.2 ⟨he, hes⟩)

end

theorem lookupClauses_draws (hf : ∀ f ∈ fs, f.returnType ≠ .any) (hl : ∀ l ∈ locals, l.type ≠ .any)
    {cs : List Clause} (hcs : ClausesFrom P cs) :
    (lookupClauses fs locals cs).Draws P fun e => e.type ≠ .any :=
  (lookupEach_draws hf hl hcs).bind fun _ hes => Checked.draws_pure (sequenceOf_type_ne hes)

end

/-! ## Sentences -/

theorem addLocal_type_ne {locals : List Local} (hl : ∀ l ∈ locals, l.type ≠ .any) {ty : Ty} (hty : ty ≠ .any)
    (name : String) (isParameter : Bool) : ∀ l ∈ addLocal locals name ty isParameter, l.type ≠ .any :=
  List.forall_mem_append.2 ⟨hl, List.forall_mem_singleton.2 hty⟩

section
variable {fs : List Function}

mutual

theorem Sentence.check_draws (hf : ∀ f ∈ fs, f.returnType ≠ .any) : ∀ {s : Sentence} {locals : List Local},
    (∀ l ∈ locals, l.type ≠ .any) → s.Sound → s.From P →
      (s.check fs locals).Draws P fun body => ∀ l ∈ body.locals, l.type ≠ .any
  | .declare name typeName l, locals, hl, hs, hfrom => by
    rw [Sentence.check]
    refine (lookupType_draws hs hfrom.2.1 hfrom.2.2).bind fun ty hty => ?_
    exact Checked.draws_pure (addLocal_type_ne hl hty name false)
  | .express cs, locals, hl, hs, hfrom => by
    rw [Sentence.check]
    exact (lookupClauses_draws hf hl hfrom).bind fun _ _ => Checked.draws_pure hl
  | .giveBack cs, locals, hl, hs, hfrom => by
    rw [Sentence.check]
    exact (lookupClauses_draws hf hl hfrom).bind fun _ _ => Checked.draws_pure hl
  | .when cs body, locals, hl, hs, hfrom => by
    rw [Sentence.check]
    refine (lookupClauses_draws hf hl hfrom.1).bind fun _ _ => ?_
    exact (checkSentences_draws hf hl hs.2 hfrom.2).bind fun inner hinner => Checked.draws_pure hinner
  | .whenElse cs body otherwise, locals, hl, hs, hfrom => by
    rw [Sentence.check]
    refine (lookupClauses_draws hf hl hfrom.1).bind fun _ _ => ?_
    refine (checkSentences_draws hf hl hs.2.1 hfrom.2.1).bind fun inner hinner => ?_
    exact (checkSentences_draws hf hinner hs.2.2 hfrom.2.2).bind fun other hother => Checked.draws_pure hother
  | .loop cs body, locals, hl, hs, hfrom => by
    rw [Sentence.check]
    refine (lookupClauses_draws hf hl hfrom.1).bind fun _ _ => ?_
    exact (checkSentences_draws hf hl hs.2 hfrom.2).bind fun inner hinner => Checked.draws_pure hinner

/-- **What is reported on a body is from the places in it.** -/
theorem checkSentences_draws (hf : ∀ f ∈ fs, f.returnType ≠ .any) : ∀ {ss : List Sentence} {locals : List Local},
    (∀ l ∈ locals, l.type ≠ .any) → SentencesSound ss → SentencesFrom P ss →
      (checkSentences fs locals ss).Draws P fun body => ∀ l ∈ body.locals, l.type ≠ .any
  | [], _, hl, _, _ => Checked.draws_pure hl
  | s :: ss, locals, hl, hs, hfrom => by
    rw [checkSentences]
    refine (Sentence.check_draws hf hl hs.1 hfrom.1).bind fun first hfirst => ?_
    exact (checkSentences_draws hf hfirst hs.2 hfrom.2).bind fun more hmore => Checked.draws_pure hmore

end

end

/-! ## Functions -/

theorem Function.parameterLocals_type_ne {f : Function} (h : ∀ ty ∈ f.parameterTypes, ty ≠ .any) :
    ∀ l ∈ f.parameterLocals, l.type ≠ .any := by
  have hgo : ∀ (own : List (PatternPart × Ty)) (ls : List Local), (∀ entry ∈ own, entry.2 ≠ .any) →
      (∀ l ∈ ls, l.type ≠ .any) →
        ∀ l ∈ own.foldl (fun ls entry => addLocal ls entry.1.name entry.2 true) ls, l.type ≠ .any := by
    intro own ls hown hls
    induction own generalizing ls with
    | nil => exact hls
    | cons entry own ih =>
      obtain ⟨hentry, hown⟩ := List.forall_mem_cons.1 hown
      exact ih _ hown (addLocal_type_ne hls hentry _ _)
  exact hgo _ [] (fun entry hentry => h _ (List.of_mem_zip hentry).2) (List.forall_mem_nil _)

theorem Function.fill_draws {fs : List Function} (hf : ∀ g ∈ fs, g.returnType ≠ .any) {f : Function}
    (hparams : ∀ ty ∈ f.parameterTypes, ty ≠ .any) {body : List Sentence} (hbody : SentencesSound body)
    (hfrom : SentencesFrom P body) : (f.fill fs body).Draws P fun _ => True := by
  unfold Function.fill
  refine (checkSentences_draws hf (Function.parameterLocals_type_ne hparams) hbody hfrom).bind fun checked _ => ?_
  cases f.role <;> exact Checked.draws_pure trivial

theorem lookupTypes_draws {l : Location} (hl : P l) {names : List String}
    (h : ∀ name ∈ names, StartsWord name ∧ Undollared name) : (lookupTypes l names).Draws P fun _ => True := by
  induction names with
  | nil => exact Checked.draws_pure trivial
  | cons name names ih =>
    obtain ⟨⟨hword, hname⟩, hnames⟩ := List.forall_mem_cons.1 h
    rw [lookupTypes]
    refine (lookupType_draws hword hname hl).bind fun _ _ => ?_
    exact (ih hnames).bind fun _ _ => Checked.draws_pure trivial

/-- What is reported on a signature is from the definition. -/
theorem Definition.sign_draws {x : Definition} (hx : x.Sound) (hfrom : x.From P) (n : Nat) :
    (x.declared.sign n).Draws P fun _ => True := by
  have hnames : ∀ name ∈ x.pattern.parameters.filterMap PatternPart.typeName?,
      StartsWord name ∧ Undollared name := by
    intro name hname
    obtain ⟨part, hpart, htype⟩ := List.mem_filterMap.1 hname
    have hmem := (List.mem_filter.1 hpart).1
    exact ⟨hx.parts part hmem name htype, (hfrom.parts part hmem).typeName name htype⟩
  unfold Function.sign
  refine (lookupType_draws hx.returnName hfrom.returnName hfrom.place).bind fun _ _ => ?_
  exact (lookupTypes_draws hfrom.place hnames).bind fun _ _ => Checked.draws_pure trivial

theorem signAll_from {fs : List Function} (h : ∀ f ∈ fs, ∀ n, ∀ r ∈ (f.sign n).reports, r.From P) (n : Nat) :
    ∀ r ∈ (signAll n fs).reports, r.From P := by
  induction fs generalizing n with
  | nil => exact List.forall_mem_nil _
  | cons f fs ih =>
    obtain ⟨hf, hfs⟩ := List.forall_mem_cons.1 h
    rw [signAll]
    dsimp only
    split_ifs
    · exact ih hfs _
    · exact ih hfs _
    · exact hf n

theorem fillAll_from {fs : List Function} {own : List (Function × List Sentence)}
    (h : ∀ o ∈ own, ∀ r ∈ (o.1.fill fs o.2).reports, r.From P) : ∀ r ∈ (fillAll fs own).reports, r.From P := by
  induction own with
  | nil => exact List.forall_mem_nil _
  | cons o own ih =>
    obtain ⟨ho, hown⟩ := List.forall_mem_cons.1 h
    rw [fillAll]
    dsimp only
    split_ifs
    · exact ih hown
    · exact ho

/-! ## Documents -/

/-- The functions that bodies are looked up among can be called. -/
theorem Document.callable_functions {d : Document} (hd : d.Sound)
    (h : ∀ x ∈ d.definitions, (x.declared.sign 0).reports = []) : Callable d.functions := by
  have hsigned := signAll_declared h
  obtain ⟨hvalue, hreports⟩ :=
    signAll_append (d.definitions.map Definition.declared) builtins_sound.2.1 builtins_reports
  change (signAll 1 d.declared).value = signedBuiltins ++ d.signed at hvalue
  change (signAll 1 d.declared).reports = _ at hreports
  rw [hsigned] at hvalue hreports
  rw [show d.functions = signedBuiltins ++ d.signed from hvalue]
  exact callable_builtins.append (Document.callable_signed hreports.symm hd)

theorem Definition.signed_types {x : Definition} (hx : x.Sound) (h : (x.declared.sign 0).reports = []) (n : Nat) :
    ∀ ty ∈ (x.signed n).parameterTypes, ty.IsValue := by
  have hs := Function.sign_signed ((x.declared.reports_sign n 0).trans h)
  intro ty hty
  have hmem := List.mem_map_of_mem (f := some) hty
  rw [signed, ← hs.parameterTypes, List.mem_map] at hmem
  obtain ⟨name, hname, hnamed⟩ := hmem
  obtain ⟨part, hpart, htype⟩ := List.mem_filterMap.1 hname
  exact Ty.isValue_of_startsWord (hx.parts part hpart name htype) hnamed

/-- **What is reported on a document is from the places in it.** -/
theorem ofDocument_from {d : Document} (hd : d.Sound) (hfrom : ∀ x ∈ d.definitions, x.From P) :
    ∀ r ∈ (Tree.ofDocument true d).reports, r.From P := by
  by_cases hclean : ∀ x ∈ d.definitions, (x.declared.sign 0).reports = []
  · rw [Tree.ofDocument_of_signatures hclean]
    refine fillAll_from fun o ho => ?_
    obtain ⟨k, hk, rfl⟩ := List.mem_mapIdx.1 ho
    have hmem := List.getElem_mem hk
    have hresult : ∀ f ∈ d.functions, f.returnType ≠ .any := fun f hf => by
      rcases (Document.callable_functions hd hclean).returnType f hf with h | h | h <;> rw [h] <;> decide
    have hparams : ∀ ty ∈ (d.definitions[k].signed (k + 1)).parameterTypes, ty ≠ .any := fun ty hty => by
      rcases Definition.signed_types (hd _ hmem) (hclean _ hmem) _ ty hty with rfl | rfl | rfl <;> decide
    exact (Function.fill_draws hresult hparams (hd _ hmem).body (hfrom _ hmem).body).reports
  · have hsigned : (signAll 1 d.declared).reports.isEmpty = false := by
      rw [Bool.eq_false_iff]
      intro hempty
      obtain ⟨-, hreports⟩ :=
        signAll_append (d.definitions.map Definition.declared) builtins_sound.2.1 builtins_reports
      change (signAll 1 d.declared).reports = _ at hreports
      rw [List.isEmpty_iff.1 hempty] at hreports
      exact hclean (clean_of_signAll hreports.symm)
    rw [Tree.ofDocument_eq_ofSigned, Tree.ofSigned]
    simp only [hsigned, Bool.false_eq_true, if_false]
    obtain ⟨-, hreports⟩ :=
      signAll_append (d.definitions.map Definition.declared) builtins_sound.2.1 builtins_reports
    change (signAll 1 d.declared).reports = _ at hreports
    rw [hreports]
    refine signAll_from (fun f hf n => ?_) 1
    obtain ⟨x, hx, rfl⟩ := List.mem_map.1 hf
    exact (Definition.sign_draws (hd x hx) (hfrom x hx) n).reports

end

/-! ## Sources -/

/-- A place in a source: behind some front of it. -/
def Location.In (source : String) (l : Location) : Prop :=
  ∃ before behind, source = before ++ behind ∧ l = .behind before

section
variable {source : String}

theorem location_in_of_mem_scan {p : Piece} (hp : p ∈ scan .start source.toList) : p.location.In source := by
  obtain ⟨-, before, behind, hsplit, hplace⟩ := mem_scan p hp
  refine ⟨String.ofList before, String.ofList (p.text ++ behind), ?_, ?_⟩
  · rw [← String.ofList_append, ← List.append_assoc, ← hsplit, String.ofList_toList]
  · rw [hplace, Location.after_start]

theorem end_in_source : (Location.start.after source.toList).In source := by
  refine ⟨source, "", String.append_empty.symm, ?_⟩
  rw [Location.after_start, String.ofList_toList]

theorem undollared_rejected {problem : Problem} {text : List Char} (h : problem.Rejects text) :
    Undollared problem.message := by
  cases h <;> exact of_decide_eq_true rfl

/-- No word, number or sign that is a token has a dollar sign in it. -/
theorem undollared_of_role {c : Char} {cs : List Char} {kind : TokenKind}
    (h : role c (cs.take (reach c cs)) = .token kind) (hkind : kind ≠ .comment) :
    Undollared (String.ofList (c :: cs.take (reach c cs))) := by
  rcases role_cases h with ⟨hblank, hword, hk⟩ | hk | ⟨hdigit, -⟩
  · obtain ⟨⟨d, ds, htext, hd, hds⟩, -⟩ := spelled_of_word hblank hword hkind hk
    rw [Undollared, htext, List.mem_cons, not_or]
    exact ⟨fun he => absurd (he ▸ hd) (by decide), fun hmem => absurd (hds _ hmem) (by decide)⟩
  · have hsign : '$' ≠ c ∧ reach c cs = 0 := by
      rcases signKind?_cases hk with ⟨rfl, -⟩ | ⟨rfl, -⟩ | ⟨rfl, -⟩ | ⟨rfl, -⟩
      all_goals exact ⟨by decide, reach_eq_zero (by decide) (by decide) (by decide)⟩
    rw [Undollared, String.toList_ofList, hsign.2, List.take_zero, List.mem_singleton]
    exact hsign.1
  · have hblank : ¬ Text.isAsciiBlank c = true := by
      rw [isDigit_iff] at hdigit
      rw [isAsciiBlank_iff]
      omega
    have hword : ¬ isWordStart c = true := by
      rw [isDigit_iff] at hdigit
      rw [isWordStart_iff]
      omega
    have hreach : reach c cs = numberReach cs := by simp [reach, hblank, hword, hdigit]
    rw [Undollared, String.toList_ofList, hreach, List.mem_cons, not_or]
    refine ⟨fun he => absurd (he ▸ hdigit) (by decide), fun hmem => ?_⟩
    rcases take_numberReach cs _ hmem with hd | hd
    · exact absurd hd (by decide)
    · exact absurd hd (by decide)

theorem tokens_from : ∀ t ∈ (Token.ofSource source).tokens, t.kind ≠ .comment → t.From (Location.In source) := by
  intro t ht hkind
  obtain ⟨ht, -⟩ := List.mem_filter.1 ht
  rcases List.mem_append.1 ht with ht | ht
  · obtain ⟨p, hp, hpt⟩ := List.mem_filterMap.1 ht
    obtain ⟨hrole, htext, hplace⟩ := Piece.token?_eq_some_iff.1 hpt
    refine ⟨hplace ▸ location_in_of_mem_scan hp, ?_⟩
    rw [htext]
    exact forall_scan (P := fun p => p.role = .token t.kind → Undollared p.string)
      (fun _ _ _ h => undollared_of_role h hkind) _ _ p hp hrole
  · rw [List.mem_singleton.1 ht]
    exact ⟨end_in_source, (by decide : Undollared "")⟩

theorem lastLocation_in : (lastLocation (Token.ofSource source).tokens).In source := by
  have hlast : (Token.ofSource source).tokens.getLast? =
      some ⟨.endOfInput, "", Location.start.after source.toList⟩ := by
    simp [Token.ofSource, Token.allOfSource]
  rw [lastLocation, hlast]
  exact end_in_source

/-- A text that is read without a report is looked up; another one is not. -/
theorem Analysis.reports_cases (source : String) :
    ((Analysis.ofSource source).readingReports = [] ∧ (Analysis.ofSource source).document.Sound ∧
        (Analysis.ofSource source).reports = (Tree.ofDocument true (Analysis.ofSource source).document).reports) ∨
      ((Analysis.ofSource source).readingReports ≠ [] ∧
        (Analysis.ofSource source).reports = (Analysis.ofSource source).readingReports) := by
  have hreports : (Analysis.ofSource source).reports = (Analysis.ofSource source).readingReports ++
      (Tree.ofDocument (Analysis.ofSource source).readingReports.isEmpty
        (Analysis.ofSource source).document).reports := rfl
  by_cases hempty : (Analysis.ofSource source).readingReports = []
  · have hfound := (List.append_eq_nil_iff.1 (show (Token.ofSource source).reports ++ _ = [] from hempty)).2
    have hsound : (Analysis.ofSource source).document.Sound := ofTokens_sound (ofSource_sound source) hfound
    rw [hempty] at hreports
    exact .inl ⟨hempty, hsound, hreports⟩
  · rw [List.isEmpty_eq_false_iff.2 hempty] at hreports
    exact .inr ⟨hempty, hreports.trans (List.append_nil _)⟩

/-- **Everything that is reported on a source is reported at a place in it**, and no message
    has a dollar sign. -/
theorem reports_from : ∀ r ∈ (Analysis.ofSource source).reports, r.From (Location.In source) := by
  have hscanned : ∀ r ∈ (Token.ofSource source).reports, r.From (Location.In source) := by
    intro r hr
    obtain ⟨p, hp, hpr⟩ := List.mem_filterMap.1 hr
    obtain ⟨hrole, hplace⟩ := Piece.report?_eq_some_iff.1 hpr
    refine ⟨hplace ▸ location_in_of_mem_scan hp, ?_⟩
    exact forall_scan (P := fun p => p.role = .rejected r.problem → Undollared r.problem.message)
      (fun _ _ _ h => undollared_rejected (rejects_of_role h)) _ _ p hp hrole
  have hread : (∀ d ∈ (Analysis.ofSource source).document.definitions, d.From (Location.In source)) ∧
      ∀ r ∈ (Document.ofTokens (Token.ofSource source).reports.isEmpty (Token.ofSource source).tokens).2,
        r.From (Location.In source) :=
    ofTokens_from lastLocation_in tokens_from
  rcases Analysis.reports_cases source with ⟨-, hsound, hreports⟩ | ⟨-, hreports⟩
  · rw [hreports]
    exact ofDocument_from hsound hread.1
  · rw [hreports]
    exact List.forall_mem_append.2 ⟨hscanned, hread.2⟩

end

end DanishProse

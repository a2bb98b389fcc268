/-
  One mistake is reported once.

  * A `Visit` is a point in the look-up of a body: what is looked up, among which locals,
    and what has been reported by then; `Visit.Step` leads from it to its parts, in their
    order;
  * what is reported on a part is reported on the whole (`Visit.Step.reports`);
  * `Visit.Founded`: if a local has no type, there has been a report; every step keeps this
    (`Visit.Step.founded`).  Then a clause list without a type is never the first thing to
    go wrong (`lookupClauses_type_none`);
  * `failures` counts the clauses that call for something there is not, with arguments that
    have types, and the names of types that are none: there are as many reports
    (`check_failures`);
  * `errors_do_not_cascade` says all this of the bodies that are looked up for a source.
-/
import Mathlib.Logic.Relation
import DanishProse.Proofs.Messages

namespace DanishProse

/-! ## Visits -/

/-- What is looked up in a body, or a part of it. -/
inductive Work where
  | sentences (ss : List Sentence)
  | sentence (s : Sentence)
  /-- A clause list, with a value of its own. -/
  | list (cs : List Clause)
  /-- Clauses of a list. -/
  | clauses (cs : List Clause)
  | clause (c : Clause)
  /-- Parts of a clause. -/
  | parts (ps : List Part)

/-- A point in the look-up of a body. -/
structure Visit where
  locals : List Local
  /-- What has been reported in the body by then. -/
  reported : List Report
  work : Work

section
variable (fs : List Function)

/-- What is reported on the work itself. -/
def Visit.reports (v : Visit) : List Report :=
  match v.work with
  | .sentences ss => (checkSentences fs v.locals ss).reports
  | .sentence s => (s.check fs v.locals).reports
  | .list cs => (lookupClauses fs v.locals cs).reports
  | .clauses cs => (lookupEach fs v.locals cs).reports
  | .clause c => (c.lookup fs v.locals).reports
  | .parts ps => (lookupParts fs v.locals ps).reports

/-- From some work to a part of it, after what comes before that part. -/
inductive Visit.Step : Visit → Visit → Prop
  | sentence {ls rs s ss} : Step ⟨ls, rs, .sentences (s :: ss)⟩ ⟨ls, rs, .sentence s⟩
  | sentences {ls rs s ss} : Step ⟨ls, rs, .sentences (s :: ss)⟩
      ⟨(s.check fs ls).value.locals, rs ++ (s.check fs ls).reports, .sentences ss⟩
  | express {ls rs cs} : Step ⟨ls, rs, .sentence (.express cs)⟩ ⟨ls, rs, .list cs⟩
  | giveBack {ls rs cs} : Step ⟨ls, rs, .sentence (.giveBack cs)⟩ ⟨ls, rs, .list cs⟩
  | when {ls rs cs body} : Step ⟨ls, rs, .sentence (.when cs body)⟩ ⟨ls, rs, .list cs⟩
  | whenBody {ls rs cs body} : Step ⟨ls, rs, .sentence (.when cs body)⟩
      ⟨ls, rs ++ (lookupClauses fs ls cs).reports, .sentences body⟩
  | whenElse {ls rs cs body other} : Step ⟨ls, rs, .sentence (.whenElse cs body other)⟩ ⟨ls, rs, .list cs⟩
  | whenElseBody {ls rs cs body other} : Step ⟨ls, rs, .sentence (.whenElse cs body other)⟩
      ⟨ls, rs ++ (lookupClauses fs ls cs).reports, .sentences body⟩
  | otherwise {ls rs cs body other} : Step ⟨ls, rs, .sentence (.whenElse cs body other)⟩
      ⟨(checkSentences fs ls body).value.locals,
        rs ++ ((lookupClauses fs ls cs).reports ++ (checkSentences fs ls body).reports), .sentences other⟩
  | loop {ls rs cs body} : Step ⟨ls, rs, .sentence (.loop cs body)⟩ ⟨ls, rs, .list cs⟩
  | loopBody {ls rs cs body} : Step ⟨ls, rs, .sentence (.loop cs body)⟩
      ⟨ls, rs ++ (lookupClauses fs ls cs).reports, .sentences body⟩
  | list {ls rs cs} : Step ⟨ls, rs, .list cs⟩ ⟨ls, rs, .clauses cs⟩
  | clause {ls rs c cs} : Step ⟨ls, rs, .clauses (c :: cs)⟩ ⟨ls, rs, .clause c⟩
  | clauses {ls rs c cs} : Step ⟨ls, rs, .clauses (c :: cs)⟩
      ⟨ls, rs ++ (c.lookup fs ls).reports, .clauses cs⟩
  | parts {ls rs l ps} : Step ⟨ls, rs, .clause (.mk l ps)⟩ ⟨ls, rs, .parts ps⟩
  | nested {ls rs cs ps} : Step ⟨ls, rs, .parts (.list cs :: ps)⟩ ⟨ls, rs, .list cs⟩
  | laterParts {ls rs p ps} : Step ⟨ls, rs, .parts (p :: ps)⟩
      ⟨ls, rs ++ (p.lookup fs ls).reports, .parts ps⟩

/-- From some work to a part of it at any depth. -/
def Visit.Reaches : Visit → Visit → Prop :=
  Relation.ReflTransGen (Visit.Step fs)

end

section
variable {fs : List Function}

/-- **What is reported on a part is reported on the whole**, behind what has been reported by
    then. -/
theorem Visit.Step.reports {v w : Visit} (h : v.Step fs w) :
    w.reported ++ w.reports fs <+: v.reported ++ v.reports fs := by
  cases h
  all_goals simp only [Visit.reports, checkSentences, Sentence.check, lookupClauses, lookupEach,
    Clause.lookup, lookupParts, Part.lookup, Checked.reports_bind, Checked.reports_pure, List.append_assoc,
    List.append_nil, List.prefix_append_right_inj, List.prefix_append, List.prefix_rfl]

/-- What is reported anywhere in some work is reported on the whole. -/
theorem Visit.Reaches.reports {v w : Visit} (h : v.Reaches fs w) :
    w.reported ++ w.reports fs <+: v.reported ++ v.reports fs := by
  induction h with
  | refl => exact List.prefix_rfl
  | tail _ hstep ih => exact hstep.reports.trans ih

/-! ## Clauses of their own -/

/-- The values that a clause passes. -/
def Clause.arguments (fs : List Function) (locals : List Local) (c : Clause) : List Expression :=
  (lookupParts fs locals c.parts).value.filterMap Term.argument?

/-- What a clause itself comes to, when its parts have been looked up. -/
def Clause.resolve (fs : List Function) (locals : List Local) (c : Clause) : Checked Expression :=
  resolveTerms fs (lookupParts fs locals c.parts).value c.location

/-- What is reported on a clause is reported on its parts, or on the clause itself. -/
theorem Clause.lookup_eq (locals : List Local) (c : Clause) :
    c.lookup fs locals =
      ⟨(c.resolve fs locals).value, (lookupParts fs locals c.parts).reports ++ (c.resolve fs locals).reports⟩ := by
  obtain ⟨l, ps⟩ := c
  rfl

/-- A clause around a value without a type has none either, and nothing is reported on it. -/
theorem resolveTerms_silent {ts : List Term} (l : Location) {e : Expression}
    (he : e ∈ ts.filterMap Term.argument?) (htype : e.type = .none) :
    (resolveTerms fs ts l).value.type = .none ∧ (resolveTerms fs ts l).reports = [] := by
  have hany : (ts.filterMap Term.argument?).any (fun e => e.type = .none) = true :=
    List.any_eq_true.2 ⟨e, he, decide_eq_true htype⟩
  unfold resolveTerms
  dsimp only
  split
  · exact ⟨rfl, rfl⟩
  · next value =>
    obtain rfl : e = value := List.mem_singleton.1 he
    exact ⟨htype, rfl⟩
  · rw [if_pos hany]
    exact ⟨rfl, rfl⟩

/-! ## Values without a type -/

/-- There is a reason for a value to have no type: a local has none, or there is a report. -/
def Excused (locals : List Local) (reports : List Report) : Prop :=
  (∃ l ∈ locals, l.type = .none) ∨ reports ≠ []

section
variable {locals : List Local} {rs rs' : List Report}

theorem Excused.append_left (h : Excused locals rs) : Excused locals (rs' ++ rs) :=
  h.imp_right fun hne hnil => hne (List.append_eq_nil_iff.1 hnil).2

theorem Excused.append_right (h : Excused locals rs) : Excused locals (rs ++ rs') :=
  h.imp_right fun hne hnil => hne (List.append_eq_nil_iff.1 hnil).1

theorem sequenceOf_type_none {es : List Expression} (hne : es ≠ []) (h : (sequenceOf es).type = .none) :
    ∃ e ∈ es, e.type = .none := by
  match es, hne with
  | [e], _ => exact ⟨e, List.mem_singleton.2 rfl, h⟩
  | d :: e :: es, _ =>
    refine ⟨_, List.getLast_mem (List.cons_ne_nil d (e :: es)), ?_⟩
    change ((d :: e :: es).getLast?.map Expression.type).getD .none = .none at h
    rwa [List.getLast?_eq_some_getLast (List.cons_ne_nil _ _)] at h

theorem lookupParts_ne_nil {ps : List Part} (h : ps ≠ []) : (lookupParts fs locals ps).value ≠ [] := by
  cases ps with
  | nil => exact absurd rfl h
  | cons p ps => exact List.cons_ne_nil _ _

theorem lookupEach_ne_nil {cs : List Clause} (h : cs ≠ []) : (lookupEach fs locals cs).value ≠ [] := by
  cases cs with
  | nil => exact absurd rfl h
  | cons c cs => exact List.cons_ne_nil _ _

theorem callFirst_type_none (hf : ∀ f ∈ fs, f.returnType ≠ .none) {wanted : List Wanted}
    {arguments : List Expression} {l : Location} (h : (callFirst fs wanted arguments l).value.type = .none) :
    (callFirst fs wanted arguments l).reports ≠ [] := by
  unfold callFirst at *
  cases hlookup : lookupFunction fs wanted with
  | none => exact List.cons_ne_nil _ _
  | some found =>
    obtain ⟨f, index⟩ := found
    rw [hlookup] at h
    dsimp only at h ⊢
    split at h
    · next value target _ =>
      cases target with
      | read slot ty =>
        unfold assign at h
        dsimp only at h
        split_ifs at h <;> cases h
      | _ => exact List.cons_ne_nil _ _
    · exact absurd h (hf f (List.mem_of_getElem? (lookupFunction_spec hlookup).1))

theorem resolveTerms_type_none (hf : ∀ f ∈ fs, f.returnType ≠ .none) {ts : List Term} {l : Location}
    (hne : ts ≠ []) (h : (resolveTerms fs ts l).value.type = .none) :
    (∃ e ∈ ts.filterMap Term.argument?, e.type = .none) ∨ (resolveTerms fs ts l).reports ≠ [] := by
  unfold resolveTerms at *
  dsimp only at *
  split at h
  · exact absurd rfl hne
  · next value => exact .inl ⟨value, List.mem_singleton.2 rfl, h⟩
  · split_ifs at h ⊢ with hany
    · obtain ⟨e, he, htype⟩ := List.any_eq_true.1 hany
      exact .inl ⟨e, he, of_decide_eq_true htype⟩
    · exact .inr (callFirst_type_none hf h)

mutual

theorem Part.lookup_type_none (hf : ∀ f ∈ fs, f.returnType ≠ .none) : ∀ {p : Part}, p.Filled →
    ∀ {e : Expression}, (p.lookup fs locals).value.argument? = some e → e.type = .none →
      Excused locals (p.lookup fs locals).reports
  | .word text, _, e, he, htype => by
    rw [Part.lookup] at he
    split at he
    · next l hfound =>
      cases he
      exact .inl ⟨l, List.mem_of_find?_eq_some hfound, htype⟩
    · cases he
  | .literal v, _, e, he, htype => by
    cases he
    cases v <;> cases htype
  | .list cs, hp, e, he, htype => by
    cases he
    obtain ⟨e, he, htype⟩ := sequenceOf_type_none (lookupEach_ne_nil hp.1) htype
    exact (lookupEach_type_none hf hp.2 he htype).append_right

theorem lookupParts_type_none (hf : ∀ f ∈ fs, f.returnType ≠ .none) : ∀ {ps : List Part}, PartsFilled ps →
    ∀ {e : Expression}, e ∈ (lookupParts fs locals ps).value.filterMap Term.argument? → e.type = .none →
      Excused locals (lookupParts fs locals ps).reports
  | [], _, e, he, _ => nomatch he
  | p :: ps, hps, e, he, htype => by
    obtain ⟨t, ht, he⟩ := List.mem_filterMap.1 he
    rcases List.mem_cons.1 ht with rfl | ht
    · exact (Part.lookup_type_none hf hps.1 he htype).append_right
    · have hrest := lookupParts_type_none hf hps.2 (List.mem_filterMap.2 ⟨t, ht, he⟩) htype
      exact hrest.append_right.append_left

theorem Clause.lookup_type_none (hf : ∀ f ∈ fs, f.returnType ≠ .none) : ∀ {c : Clause}, c.Filled →
    (c.lookup fs locals).value.type = .none → Excused locals (c.lookup fs locals).reports
  | .mk l ps, hc, htype => by
    rw [Clause.lookup] at htype ⊢
    rcases resolveTerms_type_none hf (lookupParts_ne_nil hc.1) htype with ⟨e, he, hnone⟩ | hne
    · exact (lookupParts_type_none hf hc.2 he hnone).append_right
    · exact (show Excused locals _ from .inr hne).append_left

theorem lookupEach_type_none (hf : ∀ f ∈ fs, f.returnType ≠ .none) : ∀ {cs : List Clause}, ClausesFilled cs →
    ∀ {e : Expression}, e ∈ (lookupEach fs locals cs).value → e.type = .none →
      Excused locals (lookupEach fs locals cs).reports
  | [], _, e, he, _ => nomatch he
  | c :: cs, hcs, e, he, htype => by
    rcases List.mem_cons.1 he with rfl | he
    · exact (Clause.lookup_type_none hf hcs.1 htype).append_right
    · exact (lookupEach_type_none hf hcs.2 he htype).append_right.append_left

end

/-- **A clause list without a type has an excuse.** -/
theorem lookupClauses_type_none (hf : ∀ f ∈ fs, f.returnType ≠ .none) {cs : List Clause} (hne : cs ≠ [])
    (hcs : ClausesFilled cs) (h : (lookupClauses fs locals cs).value.type = .none) :
    Excused locals (lookupClauses fs locals cs).reports := by
  obtain ⟨e, he, htype⟩ := sequenceOf_type_none (lookupEach_ne_nil hne) h
  exact (lookupEach_type_none hf hcs he htype).append_right

end

/-! ## Locals without a type -/

/-- If a local has no type, there has been a report. -/
def Accounted (locals : List Local) (reports : List Report) : Prop :=
  ∀ l ∈ locals, l.type = .none → reports ≠ []

theorem Accounted.append {locals : List Local} {rs : List Report} (h : Accounted locals rs) (rs' : List Report) :
    Accounted locals (rs ++ rs') :=
  fun l hl htype hnil => h l hl htype (List.append_eq_nil_iff.1 hnil).1

/-- What has an excuse among accounted locals has been preceded by a report, or is one. -/
theorem Excused.ne_nil {locals : List Local} {rs rs' : List Report} (h : Excused locals rs')
    (hl : Accounted locals rs) : rs ++ rs' ≠ [] := by
  intro hnil
  obtain ⟨hrs, hrs'⟩ := List.append_eq_nil_iff.1 hnil
  rcases h with ⟨l, hmem, htype⟩ | hne
  · exact hl l hmem htype hrs
  · exact hne hrs'

mutual

theorem Sentence.check_accounted : ∀ {s : Sentence} {locals : List Local} {rs : List Report}, s.Sound →
    Accounted locals rs → Accounted (s.check fs locals).value.locals (rs ++ (s.check fs locals).reports)
  | .declare name typeName l, locals, rs, hs, hl => by
    refine List.forall_mem_append.2 ⟨hl.append _, List.forall_mem_singleton.2 fun htype => ?_⟩
    change (lookupType typeName l).value = .none at htype
    unfold lookupType at htype
    cases hn : Ty.named? typeName with
    | some ty =>
      rw [hn] at htype
      exact absurd htype (Ty.isValue_of_startsWord hs hn).ne_none
    | none => simp [Sentence.check, lookupType, hn, Checked.report]
  | .express cs, locals, rs, _, hl => hl.append _
  | .giveBack cs, locals, rs, _, hl => hl.append _
  | .when cs body, locals, rs, hs, hl => by
    have hbody := checkSentences_accounted hs.2 (hl.append (lookupClauses fs locals cs).reports)
    simp only [Sentence.check, Checked.value_bind, Checked.value_pure, Checked.reports_bind,
      Checked.reports_pure, List.append_nil]
    rwa [List.append_assoc] at hbody
  | .whenElse cs body otherwise, locals, rs, hs, hl => by
    have hbody := checkSentences_accounted hs.2.1 (hl.append (lookupClauses fs locals cs).reports)
    have hother := checkSentences_accounted hs.2.2 hbody
    simp only [Sentence.check, Checked.value_bind, Checked.value_pure, Checked.reports_bind,
      Checked.reports_pure, List.append_nil]
    rwa [List.append_assoc, List.append_assoc] at hother
  | .loop cs body, locals, rs, hs, hl => by
    have hbody := checkSentences_accounted hs.2 (hl.append (lookupClauses fs locals cs).reports)
    simp only [Sentence.check, Checked.value_bind, Checked.value_pure, Checked.reports_bind,
      Checked.reports_pure, List.append_nil]
    rwa [List.append_assoc] at hbody

/-- **A body without a report has no locals without a type.** -/
theorem checkSentences_accounted : ∀ {ss : List Sentence} {locals : List Local} {rs : List Report},
    SentencesSound ss → Accounted locals rs →
      Accounted (checkSentences fs locals ss).value.locals (rs ++ (checkSentences fs locals ss).reports)
  | [], locals, rs, _, hl => hl.append _
  | s :: ss, locals, rs, hss, hl => by
    have hmore := checkSentences_accounted hss.2 (Sentence.check_accounted hss.1 hl)
    simp only [checkSentences, Checked.value_bind, Checked.value_pure, Checked.reports_bind,
      Checked.reports_pure, List.append_nil]
    rwa [List.append_assoc] at hmore

end

/-! ## Visits in order -/

/-- The work is as it is read: without empty clauses, and with words for types. -/
def Work.Sound : Work → Prop
  | .sentences ss => SentencesSound ss
  | .sentence s => s.Sound
  | .list cs => cs ≠ [] ∧ ClausesFilled cs
  | .clauses cs => ClausesFilled cs
  | .clause c => c.Filled
  | .parts ps => PartsFilled ps

/-- If a local has no type at a visit, there has been a report. -/
structure Visit.Founded (v : Visit) : Prop where
  locals : Accounted v.locals v.reported
  work : v.work.Sound

/-- **Every step keeps locals accounted for.** -/
theorem Visit.Step.founded {v w : Visit} (h : v.Step fs w) (hv : v.Founded) : w.Founded := by
  obtain ⟨hl, hw⟩ := hv
  cases h with
  | sentence => exact ⟨hl, hw.1⟩
  | sentences => exact ⟨Sentence.check_accounted hw.1 hl, hw.2⟩
  | express | giveBack => exact ⟨hl, hw⟩
  | «when» | whenElse | loop => exact ⟨hl, hw.1⟩
  | whenBody | loopBody => exact ⟨hl.append _, hw.2⟩
  | whenElseBody => exact ⟨hl.append _, hw.2.1⟩
  | @otherwise ls rs cs body other =>
    have hbody : Accounted (checkSentences fs ls body).value.locals
        (rs ++ (lookupClauses fs ls cs).reports ++ (checkSentences fs ls body).reports) :=
      checkSentences_accounted hw.2.1 (hl.append _)
    rw [List.append_assoc] at hbody
    exact ⟨hbody, hw.2.2⟩
  | list => exact ⟨hl, hw.2⟩
  | clause => exact ⟨hl, hw.1⟩
  | clauses => exact ⟨hl.append _, hw.2⟩
  | parts => exact ⟨hl, hw.2⟩
  | nested => exact ⟨hl, hw.1⟩
  | laterParts => exact ⟨hl.append _, hw.2⟩

theorem Visit.Reaches.founded {v w : Visit} (h : v.Reaches fs w) (hv : v.Founded) : w.Founded := by
  induction h with
  | refl => exact hv
  | tail _ hstep ih => exact hstep.founded ih

end

/-! ## Failures -/

/-- The second argument of an assignment is a local that takes the first one. -/
def assignable : List Expression → Bool
  | [value, .read _ ty] => value.type = ty
  | [_, _] => false
  | _ => true

/-- There is no function to call, or it assigns what cannot be assigned. -/
def callFails (fs : List Function) (wanted : List Wanted) (arguments : List Expression) : Bool :=
  match lookupFunction fs wanted with
  | none => true
  | some (f, _) => f.isAssignment && !assignable arguments

/-- A clause calls something that it cannot, though all its arguments have types.  A value on its
    own calls nothing. -/
def termsFail (fs : List Function) (ts : List Term) : Bool :=
  let arguments := ts.filterMap Term.argument?
  match ts with
  | [] => false
  | [.argument _] => false
  | _ => !(arguments.any fun e => e.type = .none) && callFails fs (ts.map Term.wanted) arguments

section
variable (fs : List Function) (locals : List Local)

mutual

/-- How many clauses fail in a part. -/
def Part.failures : Part → Nat
  | .word _ => 0
  | .literal _ => 0
  | .list cs => clausesFailures cs
termination_by structural p => p

/-- How many clauses fail in a clause, itself included. -/
def Clause.failures : Clause → Nat
  | .mk _ ps => partsFailures ps + (termsFail fs (lookupParts fs locals ps).value).toNat
termination_by structural c => c

/-- How many clauses fail in parts. -/
def partsFailures : List Part → Nat
  | [] => 0
  | p :: ps => p.failures + partsFailures ps
termination_by structural ps => ps

/-- How many clauses fail in a list, at any depth. -/
def clausesFailures : List Clause → Nat
  | [] => 0
  | c :: cs => c.failures + clausesFailures cs
termination_by structural cs => cs

end

end

section
variable (fs : List Function)

mutual

/-- How many clauses fail in a sentence, and how many types are not there that it names. -/
def Sentence.failures (locals : List Local) : Sentence → Nat
  | .declare _ typeName _ => (Ty.named? typeName).isNone.toNat
  | .express cs => clausesFailures fs locals cs
  | .giveBack cs => clausesFailures fs locals cs
  | .when cs body => clausesFailures fs locals cs + sentencesFailures locals body
  | .whenElse cs body otherwise =>
    clausesFailures fs locals cs + sentencesFailures locals body +
      sentencesFailures (checkSentences fs locals body).value.locals otherwise
  | .loop cs body => clausesFailures fs locals cs + sentencesFailures locals body

/-- How many clauses fail in sentences, and how many types are not there that they name. -/
def sentencesFailures (locals : List Local) : List Sentence → Nat
  | [] => 0
  | s :: ss => s.failures locals + sentencesFailures (s.check fs locals).value.locals ss

end

end

section
variable {fs : List Function}

theorem assignable_of_length {arguments : List Expression} (h : arguments.length ≠ 2) :
    assignable arguments = true := by
  unfold assignable
  split
  · exact absurd rfl h
  · exact absurd rfl h
  · rfl

theorem length_assign (value target : Expression) (l : Location) (hv : value.type ≠ .none)
    (ht : target.type ≠ .none) :
    (assign value target l).reports.length = (!assignable [value, target]).toNat := by
  cases target with
  | read slot ty =>
    by_cases hsame : value.type = ty
    · simp [assign, assignable, hsame]
    · have hcond : value.type ≠ ty ∧ value.type ≠ .none ∧ ty ≠ .none := ⟨hsame, hv, ht⟩
      simp [assign, assignable, hcond, Checked.report]
  | _ => simp [assign, assignable, Checked.report]

theorem length_callFirst (wanted : List Wanted) {arguments : List Expression} (l : Location)
    (h : ∀ e ∈ arguments, e.type ≠ .none) :
    (callFirst fs wanted arguments l).reports.length = (callFails fs wanted arguments).toNat := by
  unfold callFirst callFails
  cases lookupFunction fs wanted with
  | none => rfl
  | some found =>
    obtain ⟨f, index⟩ := found
    -- a function that assigns does so with two arguments, and any other one does not assign
    have hcalls (hother : ∀ value target, f.role = .assignment → arguments = [value, target] → False) :
        (f.isAssignment && !assignable arguments) = false := by
      unfold Function.isAssignment
      split
      · next hrole =>
        have hlength : arguments.length ≠ 2 := fun hlength => by
          obtain ⟨value, target, hpair⟩ := List.length_eq_two.1 hlength
          exact hother value target hrole hpair
        rw [assignable_of_length hlength]
        rfl
      · rfl
    dsimp only
    split
    · next value target hrole =>
      rw [length_assign value target l (h value (by simp)) (h target (by simp))]
      simp [Function.isAssignment, hrole]
    · next hother =>
      rw [hcalls hother]
      rfl

/-- **A clause reports once if it fails, and not at all if it does not.** -/
theorem length_resolveTerms (ts : List Term) (l : Location) :
    (resolveTerms fs ts l).reports.length = (termsFail fs ts).toNat := by
  have hcall : ∀ ts : List Term,
      (if (ts.filterMap Term.argument?).any (fun e => e.type = .none) then
          pure (.unresolved (ts.filterMap Term.argument?))
        else callFirst fs (ts.map Term.wanted) (ts.filterMap Term.argument?) l :
          Checked Expression).reports.length =
        (!((ts.filterMap Term.argument?).any fun e => e.type = .none) &&
          callFails fs (ts.map Term.wanted) (ts.filterMap Term.argument?)).toNat := by
    intro ts
    by_cases hany : (ts.filterMap Term.argument?).any (fun e => e.type = .none) = true
    · rw [if_pos hany, hany]
      rfl
    · rw [if_neg hany, Bool.eq_false_iff.2 hany, Bool.not_false, Bool.true_and]
      exact length_callFirst _ l fun e he htype =>
        hany (List.any_eq_true.2 ⟨e, he, decide_eq_true htype⟩)
  match ts with
  | [] => rfl
  | [.argument _] => rfl
  | .word w :: ts => exact hcall (.word w :: ts)
  | .argument e :: t :: ts => exact hcall (.argument e :: t :: ts)

mutual

theorem Part.length_lookup {locals : List Local} : ∀ (p : Part),
    (p.lookup fs locals).reports.length = p.failures fs locals
  | .word w => by
    rw [Part.lookup]
    split <;> rfl
  | .literal _ => rfl
  | .list cs => by
    rw [Part.lookup, Part.failures, ← lookupEach_length cs, Checked.reports_bind, Checked.reports_pure,
      List.append_nil]

theorem lookupParts_length {locals : List Local} : ∀ (ps : List Part),
    (lookupParts fs locals ps).reports.length = partsFailures fs locals ps
  | [] => rfl
  | p :: ps => by
    rw [lookupParts, partsFailures, ← Part.length_lookup p, ← lookupParts_length ps]
    simp only [Checked.reports_bind, Checked.reports_pure, List.append_nil, List.length_append]

theorem Clause.length_lookup {locals : List Local} : ∀ (c : Clause),
    (c.lookup fs locals).reports.length = c.failures fs locals
  | .mk l ps => by
    rw [Clause.lookup_eq, Clause.failures, ← lookupParts_length ps, ← length_resolveTerms _ l]
    exact List.length_append

theorem lookupEach_length {locals : List Local} : ∀ (cs : List Clause),
    (lookupEach fs locals cs).reports.length = clausesFailures fs locals cs
  | [] => rfl
  | c :: cs => by
    rw [lookupEach, clausesFailures, ← Clause.length_lookup c, ← lookupEach_length cs]
    simp only [Checked.reports_bind, Checked.reports_pure, List.append_nil, List.length_append]

end

/-- **A clause list reports once for each clause in it that fails**, however deep it is. -/
theorem lookupClauses_length {locals : List Local} (cs : List Clause) :
    (lookupClauses fs locals cs).reports.length = clausesFailures fs locals cs := by
  rw [lookupClauses, ← lookupEach_length cs, Checked.reports_bind, Checked.reports_pure, List.append_nil]

mutual

theorem Sentence.length_check : ∀ (s : Sentence) (locals : List Local),
    (s.check fs locals).reports.length = s.failures fs locals
  | .declare name typeName l, locals => by
    rw [Sentence.check, Sentence.failures, lookupType]
    cases Ty.named? typeName <;> rfl
  | .express cs, locals => by
    rw [Sentence.check, Sentence.failures, ← lookupClauses_length, Checked.reports_bind,
      Checked.reports_pure, List.append_nil]
  | .giveBack cs, locals => by
    rw [Sentence.check, Sentence.failures, ← lookupClauses_length, Checked.reports_bind,
      Checked.reports_pure, List.append_nil]
  | .when cs body, locals => by
    rw [Sentence.check, Sentence.failures, ← lookupClauses_length, ← checkSentences_length body]
    simp only [Checked.reports_bind, Checked.reports_pure, List.append_nil, List.length_append]
  | .whenElse cs body otherwise, locals => by
    rw [Sentence.check, Sentence.failures, ← lookupClauses_length, ← checkSentences_length body,
      ← checkSentences_length otherwise]
    simp only [Checked.reports_bind, Checked.reports_pure, List.append_nil, List.length_append, Nat.add_assoc]
  | .loop cs body, locals => by
    rw [Sentence.check, Sentence.failures, ← lookupClauses_length, ← checkSentences_length body]
    simp only [Checked.reports_bind, Checked.reports_pure, List.append_nil, List.length_append]

theorem checkSentences_length : ∀ (ss : List Sentence) (locals : List Local),
    (checkSentences fs locals ss).reports.length = sentencesFailures fs locals ss
  | [], _ => rfl
  | s :: ss, locals => by
    rw [checkSentences, sentencesFailures, ← Sentence.length_check s, ← checkSentences_length ss]
    simp only [Checked.reports_bind, Checked.reports_pure, List.append_nil, List.length_append]

end

/-! ## Bodies -/

/-- What is reported on the first bodies, up to the first one with a report, is reported on
    all. -/
theorem fillAll_reports {own : List (Function × List Sentence)} {k : Nat} {o : Function × List Sentence}
    (ho : own[k]? = some o) (h : ∀ j p, j < k → own[j]? = some p → (p.1.fill fs p.2).reports = []) :
    (o.1.fill fs o.2).reports <+: (fillAll fs own).reports := by
  induction own generalizing k with
  | nil => cases ho
  | cons p own ih =>
    rw [fillAll]
    dsimp only
    cases k with
    | zero =>
      obtain rfl : p = o := Option.some.inj ho
      split_ifs with hempty
      · rw [List.isEmpty_iff.1 hempty]
        exact List.nil_prefix
      · exact List.prefix_rfl
    | succ k =>
      have hempty : (p.1.fill fs p.2).reports.isEmpty = true := List.isEmpty_iff.2 (h 0 p (Nat.succ_pos k) rfl)
      rw [if_pos hempty]
      exact ih ho fun j q hj hq => h (j + 1) q (Nat.succ_lt_succ hj) hq

end

/-- The body of a definition is looked up: nothing was reported before. -/
structure Analysis.LooksUp (a : Analysis) (k : Nat) (x : Definition) : Prop where
  reading : a.readingReports = []
  signatures : ∀ y ∈ a.document.definitions, (y.declared.sign 0).reports = []
  definition : a.document.definitions[k]? = some x
  earlier : ∀ j y, j < k → a.document.definitions[j]? = some y →
    (y.check a.document.functions (j + 1)).reports = []

/-- The look-up of a body at its beginning. -/
def Definition.visit (x : Definition) (n : Nat) : Visit :=
  ⟨(x.signed n).parameterLocals, [], .sentences x.body⟩

/-- A visit to a part of some body that is looked up. -/
def Analysis.Visits (a : Analysis) (v : Visit) : Prop :=
  ∃ k x, a.LooksUp k x ∧ (x.visit (k + 1)).Reaches a.document.functions v

theorem Function.reports_fill (fs : List Function) (f : Function) (body : List Sentence) :
    (f.fill fs body).reports = (checkSentences fs f.parameterLocals body).reports := by
  rw [fill, Checked.reports_bind]
  cases f.role <;> exact List.append_nil _

section
variable {source : String} {k : Nat} {x : Definition}

/-- What is reported on a body that is looked up is reported on the source. -/
theorem Analysis.LooksUp.reports (h : (ofSource source).LooksUp k x) :
    (x.check (ofSource source).document.functions (k + 1)).reports <+: (ofSource source).reports := by
  rcases reports_cases source with ⟨-, -, hreports⟩ | ⟨hne, -⟩
  · rw [hreports, Tree.ofDocument_of_signatures h.signatures]
    refine fillAll_reports (k := k) (o := (x.signed (k + 1), x.body)) ?_ fun j p hj hp => ?_
    · rw [List.getElem?_mapIdx, h.definition]
      rfl
    · rw [List.getElem?_mapIdx, Option.map_eq_some_iff] at hp
      obtain ⟨y, hy, rfl⟩ := hp
      exact h.earlier j y hj hy
  · exact absurd h.reading hne

/-- A body is begun with types for all parameters. -/
theorem Analysis.LooksUp.founded (h : (ofSource source).LooksUp k x) : (x.visit (k + 1)).Founded := by
  rcases reports_cases source with ⟨-, hsound, -⟩ | ⟨hne, -⟩
  · have hx := List.mem_of_getElem? h.definition
    have htypes := Definition.signed_types (hsound x hx) (h.signatures x hx) (k + 1)
    have hsigned := Function.sign_signed ((x.declared.reports_sign (k + 1) 0).trans (h.signatures x hx))
    obtain ⟨-, -, hlocals, -⟩ := parameterLocals_laidOut hsigned htypes
    refine ⟨fun l hl htype => ?_, (hsound x hx).body⟩
    have hmem : l.type ∈ (x.declared.sign (k + 1)).value.parameterLocals.map Local.type :=
      List.mem_map_of_mem hl
    rw [hlocals] at hmem
    exact absurd htype (htypes _ hmem).ne_none
  · exact absurd h.reading hne

end

/-- What goes wrong at a visit is reported on the source, once. -/
structure Visit.Contained (a : Analysis) (v : Visit) : Prop where
  /-- What has been reported by then, and what is reported on the work, is reported on the
      source, in this order. -/
  reported : v.reported ++ v.reports a.document.functions <+: a.reports
  /-- A clause with an argument without a type has no type either, in silence. -/
  silent : ∀ c, v.work = .clause c → (∃ e ∈ c.arguments a.document.functions v.locals, e.type = .none) →
    (c.resolve a.document.functions v.locals).value.type = .none ∧
      (c.resolve a.document.functions v.locals).reports = []
  /-- Any other clause has at most one report of its own. -/
  once : ∀ c, v.work = .clause c → (c.resolve a.document.functions v.locals).reports.length ≤ 1
  /-- A clause list only has no type if something has been reported. -/
  preceded : ∀ cs, v.work = .list cs → (lookupClauses a.document.functions v.locals cs).value.type = .none →
    v.reported ++ v.reports a.document.functions ≠ []
  /-- A sentence has a report for each clause that fails in it, at any depth, and for each
      type that it names and that is not there. -/
  counted : ∀ s, v.work = .sentence s →
    (v.reports a.document.functions).length = s.failures a.document.functions v.locals

/-- **Errors do not cascade.**  No message names one of the two marks among the types, and
    wherever a body is looked up, what goes wrong is reported once: a clause around it is
    silent. -/
theorem errors_do_not_cascade (source : String) :
    (∀ r ∈ (Analysis.ofSource source).reports, ∀ ty ∈ [Ty.none, Ty.any],
        ¬ ty.name.toList <:+: r.problem.message.toList) ∧
      ∀ v, (Analysis.ofSource source).Visits v → v.Contained (Analysis.ofSource source) := by
  constructor
  · intro r hr ty hty hmentions
    have hdollar : ∀ ty ∈ [Ty.none, Ty.any], '$' ∈ ty.name.toList := by decide
    exact (reports_from r hr).message (List.IsInfix.subset hmentions (hdollar ty hty))
  · rintro v ⟨k, x, hx, hv⟩
    have hfounded := hv.founded hx.founded
    have hresult : ∀ f ∈ (Analysis.ofSource source).document.functions, f.returnType ≠ .none := by
      rcases Analysis.reports_cases source with ⟨-, hsound, -⟩ | ⟨hne, -⟩
      · exact fun f hf => ((Document.callable_functions hsound hx.signatures).returnType f hf).ne_none
      · exact absurd hx.reading hne
    constructor
    case reported =>
      have hbody : (x.visit (k + 1)).reports (Analysis.ofSource source).document.functions =
          (x.check (Analysis.ofSource source).document.functions (k + 1)).reports :=
        (Function.reports_fill _ _ _).symm
      have hwhole := hv.reports
      rw [hbody] at hwhole
      exact List.IsPrefix.trans hwhole hx.reports
    case silent =>
      rintro ⟨l, ps⟩ - ⟨e, he, htype⟩
      exact resolveTerms_silent l he htype
    case once =>
      rintro ⟨l, ps⟩ -
      rw [Clause.resolve, length_resolveTerms]
      exact Bool.toNat_le _
    case preceded =>
      intro cs hwork htype
      have hcs := hfounded.work
      rw [hwork] at hcs
      have hexcused := lookupClauses_type_none hresult hcs.1 hcs.2 htype
      rw [Visit.reports, hwork]
      exact hexcused.ne_nil hfounded.locals
    case counted =>
      intro s hwork
      rw [Visit.reports, hwork]
      exact Sentence.length_check s v.locals

section Sample

/-- A call inside of others that there is no function for. -/
def nestedSource : String :=
  "Offentlig funktion f tilbagegiver heltal. Goddag. Print (læg (gang Q med 2) sammen med to). Farvel."

/-- The innermost call is reported, and nothing around it. -/
theorem nested_mistake_reported_once :
    let a := Analysis.ofSource nestedSource
    a.reports = [⟨.unresolvedFunction "gang Q med <heltal>", ⟨63, 0, 63⟩⟩] ∧
      ∃ v s, a.Visits v ∧ v.work = .sentence s ∧ s.failures a.document.functions v.locals = 1 ∧
        (v.reports a.document.functions).length = 1 := by
  intro a
  have hanalysis : a.readingReports = [] ∧
      (∀ y ∈ a.document.definitions, (y.declared.sign 0).reports = []) ∧
        a.document.definitions.length = 1 ∧
          ∀ x ∈ a.document.definitions, x.body.length = 1 ∧
            ∀ s ∈ x.body, s.failures a.document.functions (x.signed 1).parameterLocals = 1 := by
    decide +kernel
  obtain ⟨hreading, hsigned, hlength, hbodies⟩ := hanalysis
  obtain ⟨x, hx⟩ := List.length_eq_one_iff.1 hlength
  obtain ⟨hbody, hfailures⟩ := hbodies x (by simp [hx])
  obtain ⟨s, hs⟩ := List.length_eq_one_iff.1 hbody
  have hlooks : a.LooksUp 0 x := ⟨hreading, hsigned, by rw [hx]; rfl, fun j _ hj => absurd hj (Nat.not_lt_zero j)⟩
  have hvisit : a.Visits ⟨(x.signed 1).parameterLocals, [], .sentence s⟩ := by
    refine ⟨0, x, hlooks, .single ?_⟩
    rw [Definition.visit, hs]
    exact .sentence
  have hone := hfailures s (by simp [hs])
  refine ⟨by decide +kernel, _, s, hvisit, rfl, hone, ?_⟩
  rw [((errors_do_not_cascade nestedSource).2 _ hvisit).counted s rfl]
  exact hone

end Sample

end DanishProse

/-
  Readers and the grammar: a reader without a report has taken tokens of its
  form, and takes all tokens of that form.

  * `Reader.Reads` is a reading without a report; what it says of a reader that is
    put together follows from what it says of the parts (`reads_bind`,
    `reads_expectKind`, `reads_expectKeyword`, `reads_optionalKeyword`);
  * `derives_of_reads_…` goes from readings to derivations, for any tokens;
  * `reads_of_…_derives` goes back.  What follows must not look as if the form
    went on (`EndsList`), and the tokens must be such as a text is cut into
    (`Token.Lexed`): a keyword of the grammar is never the end of input, and a word
    never an article.
-/
import DanishProse.Proofs.Derivation
import DanishProse.Proofs.Reading

namespace DanishProse

/-! ## Tokens -/

/-- A token that reads as one keyword does not read as another. -/
theorem Token.not_reads {t : Token} {a b : String} (h : t.reads a = true)
    (hab : Text.sameWord a b = false) : t.reads b = false := by
  rw [Bool.eq_false_iff]
  intro hb
  rw [Text.sameWord_trans (by rw [Text.sameWord_comm]; exact h) hb] at hab
  cases hab

/-- What the tokens of a text have in common. -/
structure Token.Lexed (t : Token) : Prop where
  endOfInput : t.kind = .endOfInput → t.text = ""
  parenOpen : t.kind = .parenOpen → t.text = "("
  word : t.kind = .word → t.reads "en" = false ∧ t.reads "et" = false

theorem Token.Lexed.kind_ne {t : Token} (h : t.Lexed) {keyword : String}
    (hr : t.reads keyword = true) (hk : Text.sameWord "" keyword = false) :
    t.kind ≠ .endOfInput := by
  intro he
  rw [Token.reads, h.endOfInput he, hk] at hr
  cases hr

theorem firstLocation_eq {ts : List Token} (h : ts ≠ []) (ending : Location) (us : List Token) :
    firstLocation ts = (nextToken ending (ts ++ us)).location := by
  cases ts with
  | nil => exact absurd rfl h
  | cons t ts => rfl

/-! ## Clean readings -/

/-- Reading these tokens gives a value and leaves a rest, without a report. -/
def Reader.Reads {α : Type} (r : Reader α) (ending : Location) (ts : List Token) (a : α)
    (rest : List Token) : Prop :=
  (r ending ts).reports = [] ∧ (r ending ts).value = a ∧ (r ending ts).rest = rest

section
variable {ending : Location} {ts rest : List Token}

theorem reads_pure {α : Type} {a b : α} :
    Reader.Reads (pure a) ending ts b rest ↔ b = a ∧ rest = ts := by
  constructor
  · rintro ⟨-, rfl, rfl⟩
    exact ⟨rfl, rfl⟩
  · rintro ⟨rfl, rfl⟩
    exact ⟨rfl, rfl, rfl⟩

theorem reads_bind {α β : Type} {r : Reader α} {f : α → Reader β} {b : β} :
    Reader.Reads (r >>= f) ending ts b rest ↔
      ∃ a us, Reader.Reads r ending ts a us ∧ Reader.Reads (f a) ending us b rest := by
  constructor
  · rintro ⟨h, rfl, rfl⟩
    obtain ⟨hr, hf⟩ := List.append_eq_nil_iff.1 h
    exact ⟨_, _, ⟨hr, rfl, rfl⟩, hf, rfl, rfl⟩
  · rintro ⟨_, _, ⟨hr, rfl, rfl⟩, hf, rfl, rfl⟩
    exact ⟨List.append_eq_nil_iff.2 ⟨hr, hf⟩, rfl, rfl⟩

theorem ite_reports_eq_nil {p : Prop} [Decidable p] {r : Report} :
    (if p then [] else [r]) = [] ↔ p := by
  split <;> simp_all

theorem reads_expectKind (kind : TokenKind) (h : kind ≠ .endOfInput) {t : Token} :
    Reader.Reads (expectKind kind) ending ts t rest ↔ ts = t :: rest ∧ t.kind = kind := by
  cases ts with
  | nil => simp [Reader.Reads, expectKind, nextToken, h.symm]
  | cons u us =>
    simp only [Reader.Reads, expectKind, ite_reports_eq_nil, List.tail_cons, List.cons.injEq]
    simp only [nextToken, List.headD_cons]
    constructor
    · rintro ⟨hk, rfl, rfl⟩
      exact ⟨⟨rfl, rfl⟩, hk⟩
    · rintro ⟨⟨rfl, rfl⟩, hk⟩
      exact ⟨hk, rfl, rfl⟩

theorem reads_expectKeyword (keyword : String) (h : Text.sameWord "" keyword = false) {t : Token} :
    Reader.Reads (expectKeyword keyword) ending ts t rest ↔ ts = t :: rest ∧ t.reads keyword = true := by
  cases ts with
  | nil => simp [Reader.Reads, expectKeyword, nextToken, Token.reads, h]
  | cons u us =>
    simp only [Reader.Reads, expectKeyword, ite_reports_eq_nil, List.tail_cons, List.cons.injEq]
    simp only [nextToken, List.headD_cons]
    constructor
    · rintro ⟨hk, rfl, rfl⟩
      exact ⟨⟨rfl, rfl⟩, hk⟩
    · rintro ⟨⟨rfl, rfl⟩, hk⟩
      exact ⟨hk, rfl, rfl⟩

theorem reads_optionalKeyword {keyword : String} {u : Unit} :
    Reader.Reads (optionalKeyword keyword) ending ts u rest ↔ rest = dropKeyword keyword ts := by
  constructor
  · rintro ⟨-, -, rfl⟩
    rfl
  · rintro rfl
    exact ⟨rfl, rfl, rfl⟩

theorem reads_nextLocation {l : Location} :
    Reader.Reads nextLocation ending ts l rest ↔ l = (nextToken ending ts).location ∧ rest = ts := by
  constructor
  · rintro ⟨-, rfl, rfl⟩
    exact ⟨rfl, rfl⟩
  · rintro ⟨rfl, rfl⟩
    exact ⟨rfl, rfl, rfl⟩

end

theorem dropKeyword_cons {keyword : String} {t : Token} (h : t.reads keyword = true) (ts : List Token) :
    dropKeyword keyword (t :: ts) = ts := by
  simp [dropKeyword, nextReads, h]

theorem dropKeyword_eq {keyword : String} {ts : List Token} (h : nextReads keyword ts = false) :
    dropKeyword keyword ts = ts := by
  simp [dropKeyword, h]

/-- A keyword that may be there is there or not. -/
theorem dropKeyword_cases (keyword : String) (ts : List Token) :
    (nextReads keyword ts = false ∧ dropKeyword keyword ts = ts) ∨
      ∃ t us, t.reads keyword = true ∧ ts = t :: us ∧ dropKeyword keyword ts = us := by
  cases ts with
  | nil => exact .inl ⟨rfl, rfl⟩
  | cons t us =>
    cases h : t.reads keyword with
    | false => exact .inl ⟨h, dropKeyword_eq h⟩
    | true => exact .inr ⟨t, us, h, rfl, dropKeyword_cons h us⟩

theorem nextReads_iff {keyword : String} {ts : List Token} :
    nextReads keyword ts = true ↔ ∃ t, t.reads keyword = true ∧ ts = t :: ts.tail := by
  cases ts with
  | nil => simp [nextReads]
  | cons t ts => simp [nextReads]

theorem nextReads_append {keyword : String} {ts us : List Token} (h : ts ≠ []) :
    nextReads keyword (ts ++ us) = nextReads keyword ts := by
  cases ts with
  | nil => exact absurd rfl h
  | cons t ts => rfl

/-! ## Clauses -/

section
variable {ending : Location} {t : Token} {ts rest : List Token} {r : ClauseRun} {cs : List Clause}

theorem reads_clauseRun_word (h : t.kind = .word) :
    Reader.Reads clauseRun ending (t :: ts) r rest ↔
      ∃ r', Reader.Reads clauseRun ending ts r' rest ∧ r = r'.push (.word t.text) := by
  unfold Reader.Reads
  rw [clauseRun]
  simp only [h]
  constructor
  · rintro ⟨hr, rfl, rfl⟩
    exact ⟨_, ⟨hr, rfl, rfl⟩, rfl⟩
  · rintro ⟨_, ⟨hr, rfl, rfl⟩, rfl⟩
    exact ⟨hr, rfl, rfl⟩

theorem reads_clauseRun_literal {v : Literal} (h : t.kind = .literal v) :
    Reader.Reads clauseRun ending (t :: ts) r rest ↔
      ∃ r', Reader.Reads clauseRun ending ts r' rest ∧ r = r'.push (.literal v) := by
  unfold Reader.Reads
  rw [clauseRun]
  simp only [h]
  constructor
  · rintro ⟨hr, rfl, rfl⟩
    exact ⟨_, ⟨hr, rfl, rfl⟩, rfl⟩
  · rintro ⟨_, ⟨hr, rfl, rfl⟩, rfl⟩
    exact ⟨hr, rfl, rfl⟩

theorem reads_clauseRun_list (h : t.kind = .parenOpen) :
    Reader.Reads clauseRun ending (t :: ts) r rest ↔
      ∃ cs u us r', Reader.Reads clauseList ending ts cs (u :: us) ∧ u.kind = .parenClose ∧
        Reader.Reads clauseRun ending us r' rest ∧ r = r'.push (.list cs) := by
  have hclose (us : List Token) (u : Token) (vs : List Token) :
      Reader.Reads (expectKind .parenClose) ending us u vs ↔ us = u :: vs ∧ u.kind = .parenClose :=
    reads_expectKind .parenClose (by simp)
  constructor
  · rintro ⟨hr, rfl, rfl⟩
    rw [clauseRun] at hr ⊢
    simp only [h, List.append_eq_nil_iff] at hr ⊢
    obtain ⟨⟨⟨hnext, hinner⟩, hc⟩, hr⟩ := hr
    obtain ⟨hus, hk⟩ := (hclose _ _ _).1 ⟨hc, rfl, rfl⟩
    exact ⟨_, _, _, _, ⟨List.append_eq_nil_iff.2 ⟨hnext, hinner⟩, rfl, hus⟩, hk, ⟨hr, rfl, rfl⟩, rfl⟩
  · rintro ⟨_, u, us, _, ⟨hcs, rfl, hus⟩, hk, ⟨hr, rfl, rfl⟩, rfl⟩
    obtain ⟨hc, hcv, hcr⟩ := (hclose _ _ _).2 ⟨hus, hk⟩
    unfold Reader.Reads
    rw [clauseRun]
    simp only [h, List.append_eq_nil_iff]
    change _ = us at hcr
    have hrun : (clauseList ending ts).rest = (clauseRun ending ts).rest := rfl
    rw [hrun] at hc hcr
    rw [hcr]
    exact ⟨⟨⟨List.append_eq_nil_iff.1 hcs, hc⟩, hr⟩, rfl, rfl⟩

theorem reads_clauseRun_comma (h : t.kind = .comma) :
    Reader.Reads clauseRun ending (t :: ts) r rest ↔
      ∃ cs, Reader.Reads clauseList ending (dropKeyword "og" ts) cs rest ∧ r = ⟨[], cs⟩ := by
  unfold Reader.Reads
  rw [clauseRun]
  simp only [h]
  constructor
  · rintro ⟨hr, rfl, rfl⟩
    exact ⟨_, ⟨hr, rfl, rfl⟩, rfl⟩
  · rintro ⟨_, ⟨hr, rfl, rfl⟩, rfl⟩
    exact ⟨hr, rfl, rfl⟩

/-- These tokens do not go on with a clause list. -/
def EndsList (ts : List Token) : Prop :=
  ∀ t ∈ ts.head?, t.isPart = false ∧ t.kind ≠ .comma

theorem reads_clauseRun_end (h : EndsList ts) :
    Reader.Reads clauseRun ending ts r rest ↔ r = ⟨[], []⟩ ∧ rest = ts := by
  unfold Reader.Reads
  cases ts with
  | nil =>
    rw [clauseRun]
    simp [eq_comm]
  | cons t us =>
    obtain ⟨hp, hc⟩ := h t rfl
    unfold Token.isPart at hp
    rw [clauseRun]
    split at hp <;> simp_all [eq_comm]

theorem reads_clauseList :
    Reader.Reads clauseList ending ts cs rest ↔ (nextToken ending ts).isPart = true ∧
      ∃ r, Reader.Reads clauseRun ending ts r rest ∧ cs = r.clauses (nextToken ending ts).location := by
  have hempty : emptyClause ending ts = [] ↔ (nextToken ending ts).isPart = true :=
    ite_reports_eq_nil
  constructor
  · rintro ⟨hr, rfl, rfl⟩
    obtain ⟨hnext, hr⟩ := List.append_eq_nil_iff.1 hr
    exact ⟨hempty.1 hnext, _, ⟨hr, rfl, rfl⟩, rfl⟩
  · rintro ⟨hnext, _, ⟨hr, rfl, rfl⟩, rfl⟩
    exact ⟨List.append_eq_nil_iff.2 ⟨hempty.2 hnext, hr⟩, rfl, rfl⟩

/-- The rest of a clause and the clauses after it, with the tokens of both. -/
def ClauseRun.Derives (next : Token) (r : ClauseRun) (ts : List Token) : Prop :=
  ∃ us vs, ts = us ++ vs ∧ PartsDerive r.parts us ∧ OthersDerive r.others vs ∧
    (next.isPart = true → r.parts ≠ [])

theorem PartsDerive.tokens_ne_nil {ps : List Part} {ts : List Token} (h : PartsDerive ps ts)
    (hne : ps ≠ []) : ts ≠ [] := by
  cases h with
  | nil => exact absurd rfl hne
  | cons hp _ => cases hp <;> simp

/-- The first token of a clause is one of a part. -/
theorem PartsDerive.isPart {ps : List Part} {ts : List Token} (h : PartsDerive ps ts)
    (hne : ps ≠ []) (ending : Location) (us : List Token) :
    (nextToken ending (ts ++ us)).isPart = true := by
  cases h with
  | nil => exact absurd rfl hne
  | cons hp _ => cases hp <;> simp [nextToken, Token.isPart, *]

theorem Clause.Derives.tokens_ne_nil {c : Clause} {ts : List Token} (h : c.Derives ts) : ts ≠ [] := by
  obtain ⟨hps, hne⟩ := h
  exact hps.tokens_ne_nil hne

/-- A clause begins where its first token is. -/
theorem ClauseRun.Derives.list {r : ClauseRun} {ts : List Token} {ending : Location}
    (h : r.Derives (nextToken ending (ts ++ rest)) ts)
    (hn : (nextToken ending (ts ++ rest)).isPart = true) :
    ListDerives (r.clauses (nextToken ending (ts ++ rest)).location) ts := by
  obtain ⟨us, vs, rfl, hps, hcs, hne⟩ := h
  have hus := hps.tokens_ne_nil (hne hn)
  rw [List.append_assoc, ← firstLocation_eq hus]
  exact .mk (.mk hps (hne hn)) hcs

/-- A list after a comma, whose `og` was taken if it was there. -/
theorem ListDerives.others {us : List Token} (h : ListDerives cs us) (ht : t.kind = .comma)
    (hd : dropKeyword "og" ts = us ++ rest) :
    ∃ vs, t :: ts = vs ++ rest ∧ OthersDerive cs vs := by
  obtain @⟨c, cs, us, vs, hc, ho⟩ := h
  rcases dropKeyword_cases "og" ts with ⟨hno, he⟩ | ⟨u, ws, hu, rfl, he⟩
  · obtain rfl := he.symm.trans hd
    rw [List.append_assoc, nextReads_append hc.tokens_ne_nil] at hno
    exact ⟨t :: (us ++ vs), rfl, .plain ht hno hc ho⟩
  · obtain rfl := he.symm.trans hd
    exact ⟨t :: u :: (us ++ vs), rfl, .joined ht hu hc ho⟩

/-- **What a reading of clauses takes, it takes from a derivation.** -/
theorem derives_of_reads_clauseRun (ending : Location) (ts : List Token) :
    ∀ r rest, Reader.Reads clauseRun ending ts r rest →
      ∃ us, ts = us ++ rest ∧ r.Derives (nextToken ending ts) us := by
  fun_induction clauseRun ending ts with
  | case1 =>
    intro r rest h
    obtain ⟨rfl, rfl⟩ := (reads_clauseRun_end (by simp [EndsList])).1 h
    exact ⟨[], rfl, [], [], rfl, .nil, .nil, by simp [nextToken, Token.isPart]⟩
  | case2 t us hk _ ih =>
    intro r rest h
    obtain ⟨r', hr, rfl⟩ := (reads_clauseRun_word hk).1 h
    obtain ⟨_, rfl, us, vs, rfl, hps, hcs, -⟩ := ih r' rest hr
    exact ⟨t :: (us ++ vs), rfl, t :: us, vs, rfl, .cons (.word hk) hps, hcs,
      fun _ => List.cons_ne_nil _ _⟩
  | case3 t us v hk _ ih =>
    intro r rest h
    obtain ⟨r', hr, rfl⟩ := (reads_clauseRun_literal hk).1 h
    obtain ⟨_, rfl, us, vs, rfl, hps, hcs, -⟩ := ih r' rest hr
    exact ⟨t :: (us ++ vs), rfl, t :: us, vs, rfl, .cons (.literal hk) hps, hcs,
      fun _ => List.cons_ne_nil _ _⟩
  | case4 t us hk inner close _ ihInner ihRest =>
    intro r rest h
    obtain ⟨cs, u, ws, r', hcs, hu, hr, rfl⟩ := (reads_clauseRun_list hk).1 h
    have hws : close.rest = ws := congrArg List.tail hcs.2.2
    rw [hws] at ihRest
    obtain ⟨hn, q, hq, rfl⟩ := reads_clauseList.1 hcs
    obtain ⟨ts, rfl, hq⟩ := ihInner q _ hq
    obtain ⟨_, rfl, us, vs, rfl, hps, hcs, -⟩ := ihRest r' rest hr
    refine ⟨t :: (ts ++ u :: (us ++ vs)), by simp, t :: (ts ++ [u]) ++ us, vs, by simp, ?_, hcs,
      fun _ => List.cons_ne_nil _ _⟩
    exact .cons (.list hk (hq.list hn) hu) hps
  | case5 t us hk ws _ ih =>
    intro r rest h
    obtain ⟨cs, hcs, rfl⟩ := (reads_clauseRun_comma hk).1 h
    obtain ⟨hn, q, hq, rfl⟩ := reads_clauseList.1 hcs
    obtain ⟨ts, hts, hq⟩ := ih q _ hq
    have hlist : ListDerives (q.clauses (nextToken ending (ts ++ rest)).location) ts :=
      ClauseRun.Derives.list (hts ▸ hq) (hts ▸ hn)
    rw [← hts] at hlist
    obtain ⟨vs, hvs, ho⟩ := hlist.others hk hts
    refine ⟨vs, hvs, [], vs, rfl, .nil, ?_, fun hp => ?_⟩
    · exact ho
    · simp [nextToken, Token.isPart, hk] at hp
  | case6 t us hw hl hp hc =>
    intro r rest h
    have hpart : t.isPart = false := by
      unfold Token.isPart
      split <;> simp_all
    have hend : EndsList (t :: us) := by
      rintro _ ⟨⟩
      exact ⟨hpart, hc⟩
    obtain ⟨rfl, rfl⟩ := (reads_clauseRun_end hend).1 h
    refine ⟨[], rfl, [], [], rfl, .nil, .nil, fun hn => ?_⟩
    change t.isPart = true at hn
    rw [hpart] at hn
    cases hn

theorem derives_of_reads_clauseList (h : Reader.Reads clauseList ending ts cs rest) :
    ∃ us, ts = us ++ rest ∧ ListDerives cs us := by
  obtain ⟨hn, r, hr, rfl⟩ := reads_clauseList.1 h
  obtain ⟨us, rfl, hr⟩ := derives_of_reads_clauseRun ending ts r rest hr
  exact ⟨us, rfl, hr.list hn⟩

mutual

theorem reads_of_part_derives : ∀ {p : Part} {us : List Token}, p.Derives us →
    ∀ {ending ws r rest}, Reader.Reads clauseRun ending ws r rest →
      Reader.Reads clauseRun ending (us ++ ws) (r.push p) rest
  | _, _, .word hk, _, _, _, _, h => (reads_clauseRun_word hk).2 ⟨_, h, rfl⟩
  | _, _, .literal hk, _, _, _, _, h => (reads_clauseRun_literal hk).2 ⟨_, h, rfl⟩
  | _, _, @Part.Derives.list t u _ ts hk hcs hu, ending, ws, _, _, h => by
    have hend : EndsList (u :: ws) := by
      rintro _ ⟨⟩
      simp [Token.isPart, hu]
    have hl : Reader.Reads clauseList ending (ts ++ u :: ws) _ (u :: ws) := reads_of_list_derives hcs hend
    have happ : t :: (ts ++ [u]) ++ ws = t :: (ts ++ u :: ws) := by simp
    rw [happ]
    exact (reads_clauseRun_list hk).2 ⟨_, u, ws, _, hl, hu, h, rfl⟩

theorem reads_of_parts_derive : ∀ {ps : List Part} {us : List Token}, PartsDerive ps us →
    ∀ {ending ws r rest}, Reader.Reads clauseRun ending ws r rest →
      Reader.Reads clauseRun ending (us ++ ws) ⟨ps ++ r.parts, r.others⟩ rest
  | _, _, .nil, _, _, _, _, h => h
  | _, _, .cons hp hps, _, _, _, _, h => by
    rw [List.append_assoc]
    exact reads_of_part_derives hp (reads_of_parts_derive hps h)

theorem reads_of_others_derive : ∀ {cs : List Clause} {us : List Token}, OthersDerive cs us →
    ∀ {ending ws}, EndsList ws → Reader.Reads clauseRun ending (us ++ ws) ⟨[], cs⟩ ws
  | _, _, .nil, _, _, h => (reads_clauseRun_end h).2 ⟨rfl, rfl⟩
  | _, _, @OthersDerive.plain _ _ _ ts us hk hno hc ho, ending, ws, h => by
    have hl : Reader.Reads clauseList ending (ts ++ (us ++ ws)) _ ws :=
      reads_of_clause_derives hc (reads_of_others_derive ho h)
    rw [← List.append_assoc] at hl
    have hog : nextReads "og" (ts ++ us ++ ws) = false := by
      rw [List.append_assoc, nextReads_append hc.tokens_ne_nil, hno]
    refine (reads_clauseRun_comma hk).2 ⟨_, ?_, rfl⟩
    rwa [List.append_eq, dropKeyword_eq hog]
  | _, _, @OthersDerive.joined _ _ _ _ ts us hk hu hc ho, ending, ws, h => by
    have hl : Reader.Reads clauseList ending (ts ++ (us ++ ws)) _ ws :=
      reads_of_clause_derives hc (reads_of_others_derive ho h)
    rw [← List.append_assoc] at hl
    refine (reads_clauseRun_comma hk).2 ⟨_, ?_, rfl⟩
    rwa [List.append_eq, List.cons_append, dropKeyword_cons hu]

theorem reads_of_clause_derives : ∀ {c : Clause} {us : List Token}, c.Derives us →
    ∀ {ending ws cs rest}, Reader.Reads clauseRun ending ws ⟨[], cs⟩ rest →
      Reader.Reads clauseList ending (us ++ ws) (c :: cs) rest
  | _, _, .mk hps hne, ending, ws, _, _, h => by
    have hr := reads_of_parts_derive hps h
    rw [List.append_nil] at hr
    rw [firstLocation_eq (hps.tokens_ne_nil hne) ending ws]
    exact reads_clauseList.2 ⟨hps.isPart hne ending ws, _, hr, rfl⟩

theorem reads_of_list_derives : ∀ {cs : List Clause} {us : List Token}, ListDerives cs us →
    ∀ {ending ws}, EndsList ws → Reader.Reads clauseList ending (us ++ ws) cs ws
  | _, _, .mk hc ho, ending, ws, h => by
    rw [List.append_assoc]
    exact reads_of_clause_derives hc (reads_of_others_derive ho h)

end

end

/-! ## Sentences -/

section
variable {ending : Location} {t : Token} {ts us vs rest : List Token} {cs : List Clause}
  {body otherwise ss : List Sentence} {s : Sentence}

theorem reads_stoppedClauses :
    Reader.Reads stoppedClauses ending ts cs rest ↔
      ∃ us, ts = us ++ rest ∧ StoppedDerives cs us := by
  simp only [stoppedClauses, reads_bind, reads_pure, reads_expectKind .dot (by simp)]
  constructor
  · rintro ⟨ds, _, hl, dot, _, ⟨rfl, hdot⟩, rfl, rfl⟩
    obtain ⟨us, rfl, hlist⟩ := derives_of_reads_clauseList hl
    exact ⟨us ++ [dot], by simp, .mk hlist hdot⟩
  · rintro ⟨_, rfl, @⟨ds, us, dot, hl, hdot⟩⟩
    have hend : EndsList (dot :: rest) := by
      rintro _ ⟨⟩
      simp [Token.isPart, hdot]
    rw [List.append_assoc]
    exact ⟨ds, _, reads_of_list_derives hl hend, dot, rest, ⟨rfl, hdot⟩, rfl, rfl⟩

theorem StoppedDerives.tokens_ne_nil (h : StoppedDerives cs ts) : ts ≠ [] := by
  cases h
  simp

theorem StoppedDerives.first_kind_ne {us : List Token} (h : StoppedDerives cs (t :: us)) :
    t.kind ≠ .endOfInput := by
  have hpart : (nextToken .start (t :: us)).isPart = true := by
    generalize hts : t :: us = ts at h
    obtain @⟨_, _, dot, @⟨_, _, _, vs, ⟨hps, hne⟩, _⟩, _⟩ := h
    rw [List.append_assoc]
    exact hps.isPart hne .start _
  intro hk
  simp [nextToken, Token.isPart, hk] at hpart

/-- A keyword with a full stop after it. -/
def KeywordStop (keyword : String) (ts rest : List Token) : Prop :=
  ∃ t dot, ts = t :: dot :: rest ∧ t.reads keyword = true ∧ dot.kind = .dot

theorem reads_keywordStop {keyword : String} (h : Text.sameWord "" keyword = false) {u : Unit} :
    Reader.Reads (do let _ ← expectKeyword keyword; let _ ← expectKind .dot; return ())
      ending ts u rest ↔ KeywordStop keyword ts rest := by
  simp only [reads_bind, reads_pure, reads_expectKind .dot (by simp),
    reads_expectKeyword keyword h, true_and]
  constructor
  · rintro ⟨t, _, ⟨rfl, ht⟩, dot, _, ⟨rfl, hdot⟩, rfl⟩
    exact ⟨t, dot, rfl, ht, hdot⟩
  · rintro ⟨t, dot, rfl, ht, hdot⟩
    exact ⟨t, _, ⟨rfl, ht⟩, dot, rest, ⟨rfl, hdot⟩, rfl⟩

theorem reads_blockOpening {u : Unit} :
    Reader.Reads blockOpening ending ts u rest ↔ KeywordStop "goddag" ts rest :=
  reads_keywordStop (by decide)

theorem reads_blockClosing {u : Unit} :
    Reader.Reads blockClosing ending ts u rest ↔ KeywordStop "farvel" ts rest :=
  reads_keywordStop (by decide)

theorem reads_condition :
    Reader.Reads condition ending ts cs rest ↔
      ∃ us vs, ts = us ++ vs ∧ StoppedDerives cs us ∧ KeywordStop "goddag" vs rest := by
  simp only [condition, reads_bind, reads_pure, reads_stoppedClauses, reads_blockOpening]
  constructor
  · rintro ⟨_, _, ⟨us, rfl, hcs⟩, _, _, hg, rfl, rfl⟩
    exact ⟨us, _, rfl, hcs, hg⟩
  · rintro ⟨us, vs, rfl, hcs, hg⟩
    exact ⟨cs, vs, ⟨us, rfl, hcs⟩, (), rest, hg, rfl, rfl⟩

theorem reads_otherwiseOpening {u : Unit} :
    Reader.Reads otherwiseOpening ending ts u rest ↔
      ∃ dot us, ts = dot :: us ∧ dot.kind = .dot ∧ KeywordStop "goddag" us rest := by
  simp only [otherwiseOpening, reads_bind, reads_expectKind .dot (by simp),
    reads_blockOpening]
  constructor
  · rintro ⟨dot, us, ⟨rfl, hdot⟩, hg⟩
    exact ⟨dot, us, rfl, hdot, hg⟩
  · rintro ⟨dot, us, rfl, hdot, hg⟩
    exact ⟨dot, us, ⟨rfl, hdot⟩, hg⟩

theorem reads_block :
    Reader.Reads block ending ts body rest ↔
      ∃ us vs, KeywordStop "goddag" ts us ∧ Reader.Reads sentences ending us body vs ∧
        KeywordStop "farvel" vs rest := by
  simp only [block, reads_bind, reads_pure, reads_blockOpening, reads_blockClosing]
  constructor
  · rintro ⟨_, us, hg, _, vs, hs, _, _, hf, rfl, rfl⟩
    exact ⟨us, vs, hg, hs, hf⟩
  · rintro ⟨us, vs, hg, hs, hf⟩
    exact ⟨(), us, hg, body, vs, hs, (), rest, hf, rfl, rfl⟩

theorem BlockDerives.of_stops (hg : KeywordStop "goddag" ts us)
    (hs : ∃ ws, us = ws ++ vs ∧ SentencesDerive true body ws) (hf : KeywordStop "farvel" vs rest) :
    ∃ ws, ts = ws ++ rest ∧ BlockDerives true body ws := by
  obtain ⟨t, dot, rfl, ht, hdot⟩ := hg
  obtain ⟨ws, rfl, hs⟩ := hs
  obtain ⟨u, dot', rfl, hu, hdot'⟩ := hf
  exact ⟨t :: dot :: (ws ++ [u, dot']), by simp, .mk ht hdot hs hu hdot'⟩

/-- A condition and the block that hangs on it. -/
theorem guarded_derives (hc : ∃ ws xs, ts = ws ++ xs ∧ StoppedDerives cs ws ∧ KeywordStop "goddag" xs us)
    (hs : ∃ ws, us = ws ++ vs ∧ SentencesDerive true body ws) (hf : KeywordStop "farvel" vs rest) :
    ∃ ws xs, ts = ws ++ xs ++ rest ∧ StoppedDerives cs ws ∧ BlockDerives true body xs := by
  obtain ⟨ws, xs, rfl, hcs, hg⟩ := hc
  obtain ⟨xs, rfl, hb⟩ := BlockDerives.of_stops hg hs hf
  exact ⟨ws, xs, (List.append_assoc _ _ _).symm, hcs, hb⟩

theorem SentencesDerive.step (hs : ∃ ws, ts = ws ++ us ∧ s.Derives true ws)
    (hw : s.isWhen = true → nextReads "ellers" us = false)
    (hss : ∃ ws, us = ws ++ rest ∧ SentencesDerive true ss ws) :
    ∃ ws, ts = ws ++ rest ∧ SentencesDerive true (s :: ss) ws := by
  obtain ⟨ws, rfl, hs⟩ := hs
  obtain ⟨xs, rfl, hss⟩ := hss
  refine ⟨ws ++ xs, (List.append_assoc _ _ _).symm, .cons hs hss fun h => ?_⟩
  cases xs with
  | nil => rfl
  | cons x xs => exact hw h

theorem derives_of_reads_declaration (ht : t.reads "lad" = true)
    (h : Reader.Reads declaration ending ts s rest) :
    s.isWhen = false ∧ ∃ us, t :: ts = us ++ rest ∧ s.Derives true us := by
  simp only [declaration, reads_bind, reads_pure, reads_expectKind .dot (by simp),
    reads_expectKind .word (by simp), reads_optionalKeyword,
    reads_expectKeyword "være" (by decide)] at h
  obtain ⟨name, _, ⟨rfl, hname⟩, be, vs, ⟨rfl, hbe⟩, -, _, rfl, -, _, rfl, typeName, _,
    ⟨hvs, htype⟩, dot, _, ⟨rfl, hdot⟩, rfl, rfl⟩ := h
  have harticle : ∃ article, vs = article ++ typeName :: dot :: rest ∧ ArticleDerives true article := by
    rcases dropKeyword_cases "en" vs with ⟨-, he⟩ | ⟨en, vs', hen, rfl, he⟩ <;> rw [he] at hvs
    · rcases dropKeyword_cases "et" vs with ⟨-, he⟩ | ⟨et, _, het, rfl, he⟩ <;> rw [he] at hvs
      · exact ⟨[], hvs, .none⟩
      · exact ⟨[et], by rw [hvs]; rfl, .et het⟩
    · rcases dropKeyword_cases "et" vs' with ⟨-, he⟩ | ⟨et, _, het, rfl, he⟩ <;> rw [he] at hvs
      · exact ⟨[en], by rw [hvs]; rfl, .en hen⟩
      · exact ⟨[en, et], by rw [hvs]; rfl, .both rfl hen het⟩
  obtain ⟨article, rfl, ha⟩ := harticle
  exact ⟨rfl, t :: name :: be :: (article ++ [typeName, dot]), by simp,
    .declare ht hname hbe ha htype hdot⟩

end

/-- **What a reading of sentences takes, it takes from a derivation.** -/
theorem derives_of_sentences (ending : Location) (ts : List Token) :
    (sentences ending ts).reports = [] → ∃ us, ts = us ++ (sentences ending ts).rest ∧
      SentencesDerive true (sentences ending ts).value us := by
  fun_induction sentences ending ts with
  | case1 => exact fun _ => ⟨[], rfl, .nil⟩
  | case2 => exact fun _ => ⟨[], rfl, .nil⟩
  | case3 t us _ hlad d more ih =>
    intro h
    obtain ⟨hd, hmore⟩ := List.append_eq_nil_iff.1 h
    obtain ⟨hw, hs⟩ := derives_of_reads_declaration hlad ⟨hd, rfl, rfl⟩
    exact SentencesDerive.step hs (fun h => absurd (hw.symm.trans h) Bool.false_ne_true) (ih hmore)
  | case4 t us _ _ hhvis c body close hellers o other close₂ more ihBody _ ihOther _ ihMore =>
    intro h
    simp only [List.append_eq_nil_iff] at h
    obtain ⟨⟨⟨⟨⟨⟨hc, hbody⟩, hclose⟩, ho⟩, hother⟩, hclose₂⟩, hmore⟩ := h
    obtain ⟨vs, xs, hvs, hcs, hb⟩ := guarded_derives (reads_condition.1 ⟨hc, rfl, rfl⟩) (ihBody hbody)
      (reads_blockClosing.1 ⟨hclose, rfl, rfl⟩)
    obtain ⟨dot, _, hdots, hdot, hg⟩ := reads_otherwiseOpening.1 ⟨ho, rfl, rfl⟩
    obtain ⟨ys, hys, hb₂⟩ := BlockDerives.of_stops hg (ihOther hother)
      (reads_blockClosing.1 ⟨hclose₂, rfl, rfl⟩)
    obtain ⟨u, hu, hclosed⟩ := nextReads_iff.1 hellers
    rw [hdots, hys] at hclosed
    refine SentencesDerive.step ⟨t :: (vs ++ xs ++ u :: dot :: ys), ?_, .whenElse hhvis hcs hb hu hdot hb₂⟩
      (absurd · Bool.false_ne_true) (ihMore hmore)
    rw [List.cons_append, List.append_assoc, List.cons_append, List.cons_append, ← hclosed]
    exact congrArg (t :: ·) hvs
  | case5 t us _ _ hhvis c body close hellers more ihBody _ ihMore =>
    intro h
    simp only [List.append_eq_nil_iff] at h
    obtain ⟨⟨⟨hc, hbody⟩, hclose⟩, hmore⟩ := h
    obtain ⟨vs, xs, hvs, hcs, hb⟩ := guarded_derives (reads_condition.1 ⟨hc, rfl, rfl⟩) (ihBody hbody)
      (reads_blockClosing.1 ⟨hclose, rfl, rfl⟩)
    exact SentencesDerive.step ⟨t :: (vs ++ xs), congrArg (t :: ·) hvs, .when hhvis hcs hb⟩
      (fun _ => Bool.eq_false_iff.2 hellers) (ihMore hmore)
  | case6 t us _ _ _ himens c body close more ihBody _ ihMore =>
    intro h
    simp only [List.append_eq_nil_iff] at h
    obtain ⟨⟨⟨hc, hbody⟩, hclose⟩, hmore⟩ := h
    obtain ⟨vs, xs, hvs, hcs, hb⟩ := guarded_derives (reads_condition.1 ⟨hc, rfl, rfl⟩) (ihBody hbody)
      (reads_blockClosing.1 ⟨hclose, rfl, rfl⟩)
    exact SentencesDerive.step ⟨t :: (vs ++ xs), congrArg (t :: ·) hvs, .loop himens hcs hb⟩
      (absurd · Bool.false_ne_true) (ihMore hmore)
  | case7 t us _ _ _ _ hgive c more ih =>
    intro h
    obtain ⟨hc, hmore⟩ := List.append_eq_nil_iff.1 h
    obtain ⟨vs, hvs, hcs⟩ := reads_stoppedClauses.1 ⟨hc, rfl, rfl⟩
    exact SentencesDerive.step ⟨t :: vs, congrArg (t :: ·) hvs, .giveBack hgive hcs⟩
      (absurd · Bool.false_ne_true) (ih hmore)
  | case8 t us h₁ h₂ h₃ h₄ h₅ c more ih =>
    intro h
    obtain ⟨hc, hmore⟩ := List.append_eq_nil_iff.1 h
    obtain ⟨vs, hvs, hcs⟩ := reads_stoppedClauses.1 ⟨hc, rfl, rfl⟩
    have hfirst : ∀ keyword ∈ openings, nextReads keyword vs = false := by
      intro keyword hk
      rw [← nextReads_append hcs.tokens_ne_nil, ← hvs]
      revert keyword
      simp only [not_or] at h₁ h₄
      simp [openings, nextReads, *]
    exact SentencesDerive.step ⟨vs, hvs, .express hfirst hcs⟩ (absurd · Bool.false_ne_true) (ih hmore)

theorem derives_of_reads_block {ending : Location} {ts rest : List Token} {body : List Sentence}
    (h : Reader.Reads block ending ts body rest) :
    ∃ us, ts = us ++ rest ∧ BlockDerives true body us := by
  obtain ⟨us, _, hg, ⟨hs, rfl, rfl⟩, hf⟩ := reads_block.1 h
  exact BlockDerives.of_stops hg (derives_of_sentences ending us hs) hf

section
variable {ending : Location} {t u dot : Token} {ts us vs ws rest : List Token} {cs : List Clause}
  {body otherwise ss : List Sentence} {s : Sentence}

theorem reads_sentences_stop (h : t.reads "farvel" = true) :
    Reader.Reads sentences ending (t :: ts) [] (t :: ts) := by
  unfold Reader.Reads
  rw [sentences, if_pos (.inr h)]
  exact ⟨rfl, rfl, rfl⟩

theorem Token.not_stops (hk : t.kind ≠ .endOfInput) (hf : t.reads "farvel" = false) :
    ¬ (t.kind = .endOfInput ∨ t.reads "farvel" = true) := by
  simp [hk, hf]

theorem reads_sentences_declare (ht : t.reads "lad" = true) (hk : t.kind ≠ .endOfInput)
    (hs : Reader.Reads declaration ending ts s us) (h : Reader.Reads sentences ending us ss rest) :
    Reader.Reads sentences ending (t :: ts) (s :: ss) rest := by
  obtain ⟨hs, rfl, rfl⟩ := hs
  obtain ⟨h, rfl, rfl⟩ := h
  unfold Reader.Reads
  rw [sentences, if_neg (Token.not_stops hk (Token.not_reads ht (by decide))), if_pos ht]
  exact ⟨List.append_eq_nil_iff.2 ⟨hs, h⟩, rfl, rfl⟩

theorem reads_guarded (hc : StoppedDerives cs ts) (hb : Reader.Reads block ending us body vs) :
    ∃ xs ys, Reader.Reads condition ending (ts ++ us) cs xs ∧
      Reader.Reads sentences ending xs body ys ∧ Reader.Reads blockClosing ending ys () vs := by
  obtain ⟨xs, ys, hg, hs, hf⟩ := reads_block.1 hb
  exact ⟨xs, ys, reads_condition.2 ⟨ts, us, rfl, hc, hg⟩, hs, reads_blockClosing.2 hf⟩

theorem reads_sentences_when (ht : t.reads "hvis" = true) (hk : t.kind ≠ .endOfInput)
    (hc : StoppedDerives cs ts) (hb : Reader.Reads block ending us body vs)
    (he : nextReads "ellers" vs = false) (h : Reader.Reads sentences ending vs ss rest) :
    Reader.Reads sentences ending (t :: (ts ++ us)) (.when cs body :: ss) rest := by
  obtain ⟨_, _, ⟨hcond, rfl, rfl⟩, ⟨hs, rfl, rfl⟩, hf, -, rfl⟩ := reads_guarded hc hb
  obtain ⟨h, rfl, rfl⟩ := h
  have hlad : ¬ t.reads "lad" = true := Bool.eq_false_iff.1 (Token.not_reads ht (by decide))
  unfold Reader.Reads
  rw [sentences, if_neg (Token.not_stops hk (Token.not_reads ht (by decide))), if_neg hlad, if_pos ht]
  simp only [he, Bool.false_eq_true, if_false, List.append_eq_nil_iff, and_true]
  exact ⟨⟨⟨hcond, hs⟩, hf⟩, h⟩

theorem reads_sentences_whenElse (ht : t.reads "hvis" = true) (hk : t.kind ≠ .endOfInput)
    (hc : StoppedDerives cs ts) (hb : Reader.Reads block ending us body (u :: dot :: vs))
    (hu : u.reads "ellers" = true) (hdot : dot.kind = .dot)
    (hb₂ : Reader.Reads block ending vs otherwise ws) (h : Reader.Reads sentences ending ws ss rest) :
    Reader.Reads sentences ending (t :: (ts ++ us)) (.whenElse cs body otherwise :: ss) rest := by
  obtain ⟨xs, ys, hg₂, hs₂, hf₂⟩ := reads_block.1 hb₂
  obtain ⟨_, _, ⟨hcond, rfl, rfl⟩, ⟨hs, rfl, rfl⟩, hf, -, hclosed⟩ := reads_guarded hc hb
  have ho : Reader.Reads otherwiseOpening ending _ () xs :=
    reads_otherwiseOpening.2 ⟨dot, vs, congrArg List.tail hclosed, hdot, hg₂⟩
  have hclose₂ : Reader.Reads blockClosing ending ys () ws := reads_blockClosing.2 hf₂
  obtain ⟨ho, -, rfl⟩ := ho
  obtain ⟨hs₂, rfl, rfl⟩ := hs₂
  obtain ⟨hclose₂, -, rfl⟩ := hclose₂
  obtain ⟨h, rfl, rfl⟩ := h
  have hlad : ¬ t.reads "lad" = true := Bool.eq_false_iff.1 (Token.not_reads ht (by decide))
  have hellers := congrArg (nextReads "ellers") hclosed
  rw [show nextReads "ellers" (u :: dot :: vs) = true from hu] at hellers
  unfold Reader.Reads
  rw [sentences, if_neg (Token.not_stops hk (Token.not_reads ht (by decide))), if_neg hlad, if_pos ht]
  simp only [hellers, if_true, List.append_eq_nil_iff, and_true]
  exact ⟨⟨⟨⟨⟨⟨hcond, hs⟩, hf⟩, ho⟩, hs₂⟩, hclose₂⟩, h⟩

theorem reads_sentences_loop (ht : t.reads "imens" = true ∨ t.reads "imedens" = true)
    (hk : t.kind ≠ .endOfInput) (hc : StoppedDerives cs ts)
    (hb : Reader.Reads block ending us body vs) (h : Reader.Reads sentences ending vs ss rest) :
    Reader.Reads sentences ending (t :: (ts ++ us)) (.loop cs body :: ss) rest := by
  obtain ⟨_, _, ⟨hcond, rfl, rfl⟩, ⟨hs, rfl, rfl⟩, hf, -, rfl⟩ := reads_guarded hc hb
  obtain ⟨h, rfl, rfl⟩ := h
  have hother : ∀ b, Text.sameWord "imens" b = false → Text.sameWord "imedens" b = false →
      t.reads b = false := fun b h₁ h₂ => ht.elim (Token.not_reads · h₁) (Token.not_reads · h₂)
  have hlad : ¬ t.reads "lad" = true := by simp [hother "lad" (by decide) (by decide)]
  have hhvis : ¬ t.reads "hvis" = true := by simp [hother "hvis" (by decide) (by decide)]
  unfold Reader.Reads
  rw [sentences, if_neg (Token.not_stops hk (hother _ (by decide) (by decide))), if_neg hlad,
    if_neg hhvis, if_pos ht]
  simp only [List.append_eq_nil_iff, and_true]
  exact ⟨⟨⟨hcond, hs⟩, hf⟩, h⟩

theorem reads_sentences_giveBack (ht : t.reads "tilbagegiv" = true) (hk : t.kind ≠ .endOfInput)
    (hc : StoppedDerives cs ts) (h : Reader.Reads sentences ending us ss rest) :
    Reader.Reads sentences ending (t :: (ts ++ us)) (.giveBack cs :: ss) rest := by
  have hr : Reader.Reads stoppedClauses ending (ts ++ us) cs us := reads_stoppedClauses.2 ⟨ts, rfl, hc⟩
  obtain ⟨hr, rfl, hus⟩ := hr
  rw [← hus] at h
  obtain ⟨h, rfl, rfl⟩ := h
  have hother : ∀ b, Text.sameWord "tilbagegiv" b = false → ¬ t.reads b = true :=
    fun b hb => Bool.eq_false_iff.1 (Token.not_reads ht hb)
  unfold Reader.Reads
  rw [sentences, if_neg (Token.not_stops hk (Token.not_reads ht (by decide))),
    if_neg (hother _ (by decide)), if_neg (hother _ (by decide)),
    if_neg (not_or.2 ⟨hother _ (by decide), hother _ (by decide)⟩), if_pos ht]
  exact ⟨List.append_eq_nil_iff.2 ⟨hr, h⟩, rfl, rfl⟩

theorem reads_sentences_express (ht : ∀ keyword ∈ openings, nextReads keyword ts = false)
    (hc : StoppedDerives cs ts) (h : Reader.Reads sentences ending us ss rest) :
    Reader.Reads sentences ending (ts ++ us) (.express cs :: ss) rest := by
  have hr : Reader.Reads stoppedClauses ending (ts ++ us) cs us := reads_stoppedClauses.2 ⟨ts, rfl, hc⟩
  cases ts with
  | nil => exact absurd rfl hc.tokens_ne_nil
  | cons t ts =>
    have hk := hc.first_kind_ne
    obtain ⟨hr, rfl, hus⟩ := hr
    rw [← hus] at h
    obtain ⟨h, rfl, rfl⟩ := h
    simp only [openings, nextReads, List.forall_mem_cons] at ht
    obtain ⟨hf, h₁, h₂, h₃, h₄, h₅, -⟩ := ht
    unfold Reader.Reads
    rw [List.cons_append, sentences, if_neg (Token.not_stops hk hf)]
    simp only [h₁, h₂, h₃, h₄, h₅, Bool.false_eq_true, if_false, or_self, List.append_eq_nil_iff,
      and_true]
    exact ⟨hr, h⟩

theorem reads_of_article_derives {article : List Token} {lax : Bool} (h : ArticleDerives lax article)
    (ht : t.reads "en" = false ∧ t.reads "et" = false) :
    dropKeyword "et" (dropKeyword "en" (article ++ t :: ts)) = t :: ts := by
  have hen : dropKeyword "en" (t :: ts) = t :: ts := dropKeyword_eq ht.1
  have het : dropKeyword "et" (t :: ts) = t :: ts := dropKeyword_eq ht.2
  cases h with
  | none => rw [List.nil_append, hen, het]
  | en h => rw [List.cons_append, List.nil_append, dropKeyword_cons h, het]
  | et h =>
    have hno : nextReads "en" (_ :: t :: ts) = false := Token.not_reads h (by decide)
    rw [List.cons_append, List.nil_append, dropKeyword_eq hno, dropKeyword_cons h]
  | both _ h h' =>
    rw [List.cons_append, List.cons_append, List.nil_append, dropKeyword_cons h, dropKeyword_cons h']

theorem reads_declaration {name be typeName : Token} {article : List Token} {lax : Bool}
    (hname : name.kind = .word) (hbe : be.reads "være" = true) (ha : ArticleDerives lax article)
    (htype : typeName.kind = .word) (hlexed : typeName.Lexed) (hdot : dot.kind = .dot) :
    Reader.Reads declaration ending (name :: be :: (article ++ typeName :: dot :: ts))
      (.declare name.text typeName.text name.location) ts := by
  simp only [declaration, reads_bind, reads_pure, reads_expectKind .dot (by simp),
    reads_expectKind .word (by simp), reads_optionalKeyword,
    reads_expectKeyword "være" (by decide)]
  have harticle : dropKeyword "et" (dropKeyword "en" (article ++ typeName :: dot :: ts)) =
      typeName :: dot :: ts := reads_of_article_derives ha (hlexed.word htype)
  exact ⟨name, _, ⟨rfl, hname⟩, be, _, ⟨rfl, hbe⟩, (), _, rfl, (), _, rfl, typeName, _,
    ⟨harticle, htype⟩, dot, ts, ⟨rfl, hdot⟩, rfl, rfl⟩

end

mutual

theorem reads_of_sentence_derives : ∀ {lax : Bool} {s : Sentence} {us : List Token}, s.Derives lax us →
    (∀ t ∈ us, t.Lexed) → ∀ {ending ws ss rest}, (s.isWhen = true → nextReads "ellers" ws = false) →
      Reader.Reads sentences ending ws ss rest → Reader.Reads sentences ending (us ++ ws) (s :: ss) rest
  | _, _, _, .declare hlad hname hbe ha htype hdot, hl, ending, ws, _, _, _, h => by
    simp only [List.forall_mem_cons, List.forall_mem_append] at hl
    rw [List.cons_append, List.cons_append, List.cons_append, List.append_assoc]
    exact reads_sentences_declare hlad (hl.1.kind_ne hlad (by decide))
      (reads_declaration hname hbe ha htype hl.2.2.2.2.1 hdot) h
  | _, _, _, .when ht hc hb, hl, ending, ws, _, _, hw, h => by
    simp only [List.forall_mem_cons, List.forall_mem_append] at hl
    rw [List.cons_append, List.append_assoc]
    exact reads_sentences_when ht (hl.1.kind_ne ht (by decide)) hc
      (reads_of_block_derives hb hl.2.2) (hw rfl) h
  | _, _, _, .whenElse ht hc hb hu hdot hb₂, hl, ending, ws, _, _, _, h => by
    simp only [List.forall_mem_cons, List.forall_mem_append] at hl
    rw [List.cons_append, List.append_assoc, List.append_assoc]
    exact reads_sentences_whenElse ht (hl.1.kind_ne ht (by decide)) hc
      (reads_of_block_derives hb hl.2.1.2) hu hdot (reads_of_block_derives hb₂ hl.2.2.2.2) h
  | _, _, _, .loop ht hc hb, hl, ending, ws, _, _, _, h => by
    simp only [List.forall_mem_cons, List.forall_mem_append] at hl
    rw [List.cons_append, List.append_assoc]
    exact reads_sentences_loop ht
      (ht.elim (hl.1.kind_ne · (by decide)) (hl.1.kind_ne · (by decide))) hc
      (reads_of_block_derives hb hl.2.2) h
  | _, _, _, .giveBack ht hc, hl, ending, ws, _, _, _, h => by
    simp only [List.forall_mem_cons] at hl
    exact reads_sentences_giveBack ht (hl.1.kind_ne ht (by decide)) hc h
  | _, _, _, .express hfirst hc, _, ending, ws, _, _, _, h =>
    reads_sentences_express hfirst hc h

theorem reads_of_sentences_derive : ∀ {lax : Bool} {ss : List Sentence} {us : List Token},
    SentencesDerive lax ss us → (∀ t ∈ us, t.Lexed) →
      ∀ {ending t ws}, t.reads "farvel" = true →
        Reader.Reads sentences ending (us ++ t :: ws) ss (t :: ws)
  | _, _, _, .nil, _, _, _, _, ht => reads_sentences_stop ht
  | _, _, _, @SentencesDerive.cons _ _ _ _ us hs hss hw, hl, ending, t, ws, ht => by
    obtain ⟨hl, hls⟩ := List.forall_mem_append.1 hl
    rw [List.append_assoc]
    refine reads_of_sentence_derives hs hl (fun h => ?_) (reads_of_sentences_derive hss hls ht)
    cases us with
    | nil => exact Token.not_reads ht (by decide)
    | cons u us => exact hw h

theorem reads_of_block_derives : ∀ {lax : Bool} {body : List Sentence} {us : List Token},
    BlockDerives lax body us → (∀ t ∈ us, t.Lexed) →
      ∀ {ending ws}, Reader.Reads block ending (us ++ ws) body ws
  | _, _, _, @BlockDerives.mk _ t dot u dot' _ ts ht hdot hss hu hdot', hl, _, ws => by
    simp only [List.forall_mem_cons, List.forall_mem_append] at hl
    have happ : t :: dot :: (ts ++ [u, dot']) ++ ws = t :: dot :: (ts ++ u :: dot' :: ws) := by simp
    rw [happ]
    exact reads_block.2 ⟨_, _, ⟨t, dot, rfl, ht, hdot⟩, reads_of_sentences_derive hss hl.2.2.1 hu,
      u, dot', rfl, hu, hdot'⟩

end

end DanishProse

/-
  The readers, unrolled: what each one does with the next token.

  A reader recurses on the tokens that are left, and some read several forms in
  one go.  Here each is said again as one look at the next token and then smaller
  readers in a row, the way in which someone reads who goes from token to token.

  * `takeToken` and `lookAhead` take a token and look at it, `note` reports;
  * `clauseList_eq` splits a list into its clauses (`oneClause`), `sentences_eq` a
    block into its sentences (`oneSentence`), and `readDefinitions_turn` a document
    into turns (`oneTurn`);
  * a sentence and a turn take a token, whatever that is (`length_oneSentence_lt`,
    `length_oneTurn_lt`);
  * without a report, definitions are read to the end of input
    (`readDefinitions_stops`).
-/
import Mathlib.Tactic.Common
import DanishProse.Proofs.Reading

namespace DanishProse

variable {α β : Type}

/-! ## Readings -/

theorem Reading.eq_of {ts : List Token} {r s : Reading ts α} (hvalue : r.value = s.value)
    (hrest : r.rest = s.rest) (hreports : r.reports = s.reports) : r = s := by
  cases r
  cases s
  cases hvalue
  cases hrest
  cases hreports
  rfl

section
variable {r : Reader α} {s : α → Reader β} {a : α} {ending : Location} {ts : List Token}

theorem Reader.value_bind : ((r >>= s) ending ts).value =
    (s (r ending ts).value ending (r ending ts).rest).value :=
  rfl

theorem Reader.rest_bind : ((r >>= s) ending ts).rest =
    (s (r ending ts).value ending (r ending ts).rest).rest :=
  rfl

theorem Reader.reports_bind : ((r >>= s) ending ts).reports =
    (r ending ts).reports ++ (s (r ending ts).value ending (r ending ts).rest).reports :=
  rfl

theorem Reader.reports_pure : ((Pure.pure a : Reader α) ending ts).reports = [] :=
  rfl

theorem Reader.length_bind_lt (h : (r ending ts).rest.length < ts.length) :
    ((r >>= s) ending ts).rest.length < ts.length :=
  Nat.lt_of_le_of_lt (s (r ending ts).value ending (r ending ts).rest).length_le h

end

/-! ## Readers of one token -/

theorem length_tail_le (ts : List Token) : ts.tail.length ≤ ts.length :=
  length_tail_le_of_le (Nat.le_refl _)

/-- Takes the next token, whatever it is. -/
def takeToken : Reader Token :=
  fun ending ts => ⟨nextToken ending ts, ts.tail, [], length_tail_le ts⟩

theorem length_tail_lt {ending : Location} {ts : List Token}
    (h : (nextToken ending ts).kind ≠ .endOfInput) : ts.tail.length < ts.length := by
  cases ts with
  | nil => exact absurd rfl h
  | cons t us => exact Nat.lt_succ_self _

/-- Reads as the next token says, without taking it. -/
def lookAhead (r : Token → Reader α) : Reader α :=
  fun ending ts => r (nextToken ending ts) ending ts

theorem lookAhead_cons {r : Token → Reader α} {ending : Location} {t : Token} {ts : List Token} :
    lookAhead r ending (t :: ts) = r t ending (t :: ts) :=
  rfl

theorem lookAhead_bind_cons {r : Token → Reader α} {s : α → Reader β} {ending : Location} {t : Token}
    {ts : List Token} : (lookAhead r >>= s) ending (t :: ts) = (r t >>= s) ending (t :: ts) :=
  rfl

/-- Makes a report unless all is well. -/
def note (well : Bool) (r : Report) : Reader Unit :=
  fun ending ts => { Reader.pure () ending ts with reports := if well then [] else [r] }

theorem expectKind_eq (kind : TokenKind) : expectKind kind = (do
    let t ← takeToken
    note (t.kind = kind) ⟨.unexpectedToken kind.name t.kind.name, t.location⟩
    return t) := by
  funext ending ts
  refine Reading.eq_of rfl rfl ?_
  change _ = [] ++ (_ ++ [])
  rw [List.nil_append, List.append_nil]
  by_cases h : (nextToken ending ts).kind = kind <;> simp [expectKind, takeToken, note, h]

theorem expectKeyword_eq (keyword : String) : expectKeyword keyword = (do
    let t ← takeToken
    let given := if t.kind = .word then t.text else t.kind.name
    note (t.reads keyword) ⟨.unexpectedToken keyword given, t.location⟩
    return t) := by
  funext ending ts
  refine Reading.eq_of rfl rfl ?_
  change _ = [] ++ (_ ++ [])
  rw [List.nil_append, List.append_nil]
  rfl

theorem expectKeyword_bind_cons {keyword : String} {s : Token → Reader β} {ending : Location} {t : Token}
    {ts : List Token} : (expectKeyword keyword >>= s) ending (t :: ts) =
      ⟨(s t ending ts).value, (s t ending ts).rest,
        (expectKeyword keyword ending (t :: ts)).reports ++ (s t ending ts).reports,
        Nat.le_succ_of_le (s t ending ts).length_le⟩ :=
  rfl

/-- Takes a keyword if it is there, and says whether it was. -/
def takeKeyword (keyword : String) : Reader Bool :=
  fun _ ts => ⟨nextReads keyword ts, dropKeyword keyword ts, [], length_dropKeyword_le keyword ts⟩

section
variable {keyword : String} {s : Bool → Reader β} {ending : Location} {ts : List Token}

theorem takeKeyword_bind_of_reads (h : nextReads keyword ts = true) :
    (takeKeyword keyword >>= s) ending ts =
      ⟨(s true ending ts.tail).value, (s true ending ts.tail).rest, (s true ending ts.tail).reports,
        Reading.length_le_of_le _ (length_tail_le_of_le (Nat.le_refl _))⟩ := by
  have hfound : (takeKeyword keyword ending ts).value = true := h
  have hdrop : (takeKeyword keyword ending ts).rest = ts.tail := if_pos h
  refine Reading.eq_of ?_ ?_ ?_
  · rw [Reader.value_bind, hfound, hdrop]
  · rw [Reader.rest_bind, hfound, hdrop]
  · rw [Reader.reports_bind, hfound, hdrop]
    rfl

theorem takeKeyword_bind_of_not_reads (h : nextReads keyword ts = false) :
    (takeKeyword keyword >>= s) ending ts = s false ending ts := by
  have hfound : (takeKeyword keyword ending ts).value = false := h
  have hdrop : (takeKeyword keyword ending ts).rest = ts := if_neg (by simp [h])
  refine Reading.eq_of ?_ ?_ ?_
  · rw [Reader.value_bind, hfound, hdrop]
  · rw [Reader.rest_bind, hfound, hdrop]
  · rw [Reader.reports_bind, hfound, hdrop]
    rfl

end

/-- Every keyword can be told from the end of input. -/
theorem nextToken_reads {keyword : String} (h : Text.sameWord "" keyword = false) (ending : Location)
    (ts : List Token) : (nextToken ending ts).reads keyword = nextReads keyword ts := by
  cases ts with
  | nil => exact h
  | cons t ts => rfl

/-! ## Clauses -/

/-- Reads the parts of a clause. -/
def clauseParts (ending : Location) (ts : List Token) : Reading ts (List Part) :=
  match ts with
  | [] => ⟨[], [], [], Nat.le_refl _⟩
  | t :: us =>
    match t.kind with
    | .word =>
      let r := clauseParts ending us
      ⟨.word t.text :: r.value, r.rest, r.reports, r.length_le_of_le (Nat.le_succ _)⟩
    | .literal v =>
      let r := clauseParts ending us
      ⟨.literal v :: r.value, r.rest, r.reports, r.length_le_of_le (Nat.le_succ _)⟩
    | .parenOpen =>
      let inner := clauseList ending us
      let close := expectKind .parenClose ending inner.rest
      let r := clauseParts ending close.rest
      ⟨.list inner.value :: r.value, r.rest, inner.reports ++ close.reports ++ r.reports,
        r.length_le_of_le (close.length_le_of_le (inner.length_le_of_le (Nat.le_succ _)))⟩
    | _ => ⟨[], t :: us, [], Nat.le_refl _⟩
termination_by ts.length
decreasing_by
  · exact Nat.lt_succ_self _
  · exact Nat.lt_succ_self _
  · exact Nat.lt_succ_of_le (Nat.le_trans close.length_le inner.length_le)

/-- Reads one clause. -/
def oneClause : Reader Clause :=
  lookAhead fun t => do
    let parts ← clauseParts
    note (!parts.isEmpty) ⟨.expectedClause, t.location⟩
    return .mk t.location parts

/-- Reads the clauses after the first one. -/
def otherClauses (ending : Location) (ts : List Token) : Reading ts (List Clause) :=
  match ts with
  | [] => ⟨[], [], [], Nat.le_refl _⟩
  | t :: us =>
    if t.kind = .comma then
      let vs := dropKeyword "og" us
      let next := oneClause ending vs
      let r := otherClauses ending next.rest
      ⟨next.value :: r.value, r.rest, next.reports ++ r.reports,
        r.length_le_of_le (next.length_le_of_le
          (Nat.le_succ_of_le (length_dropKeyword_le "og" us)))⟩
    else ⟨[], t :: us, [], Nat.le_refl _⟩
termination_by ts.length
decreasing_by
  exact Nat.lt_succ_of_le (next.length_le_of_le (length_dropKeyword_le "og" us))

section
variable {ending : Location} {t : Token} {ts us : List Token}

theorem clauseParts_word (h : t.kind = .word) :
    clauseParts ending (t :: us) = ⟨.word t.text :: (clauseParts ending us).value,
      (clauseParts ending us).rest, (clauseParts ending us).reports,
      Reading.length_le_of_le _ (Nat.le_succ _)⟩ := by
  rw [clauseParts]
  simp only [h]

theorem clauseParts_literal {v : Literal} (h : t.kind = .literal v) :
    clauseParts ending (t :: us) = ⟨.literal v :: (clauseParts ending us).value,
      (clauseParts ending us).rest, (clauseParts ending us).reports,
      Reading.length_le_of_le _ (Nat.le_succ _)⟩ := by
  rw [clauseParts]
  simp only [h]

theorem clauseParts_list (h : t.kind = .parenOpen) :
    clauseParts ending (t :: us) =
      let inner := clauseList ending us
      let close := expectKind .parenClose ending inner.rest
      let more := clauseParts ending close.rest
      ⟨.list inner.value :: more.value, more.rest, inner.reports ++ close.reports ++ more.reports,
        more.length_le_of_le (close.length_le_of_le (inner.length_le_of_le (Nat.le_succ _)))⟩ := by
  rw [clauseParts]
  simp only [h]

/-- No part is read where the next token is none. -/
theorem clauseParts_none (h : (nextToken ending ts).isPart = false) :
    clauseParts ending ts = ⟨[], ts, [], Nat.le_refl _⟩ := by
  cases ts with
  | nil => rw [clauseParts]
  | cons t us =>
    change t.isPart = false at h
    unfold Token.isPart at h
    rw [clauseParts]
    cases hk : t.kind <;> simp_all

theorem isEmpty_clauseParts (h : (nextToken ending ts).isPart = true) :
    (clauseParts ending ts).value.isEmpty = false := by
  cases ts with
  | nil => cases h
  | cons t us =>
    change t.isPart = true at h
    unfold Token.isPart at h
    split at h
    · next hk => rw [clauseParts_word hk]; rfl
    · next hk => rw [clauseParts_literal hk]; rfl
    · next hk => rw [clauseParts_list hk]; rfl
    · cases h

end

theorem clauseParts_eq : clauseParts = lookAhead fun t =>
    match t.kind with
    | .word => do
      let t ← takeToken
      let more ← clauseParts
      return .word t.text :: more
    | .literal v => do
      let _ ← takeToken
      let more ← clauseParts
      return .literal v :: more
    | .parenOpen => do
      let _ ← takeToken
      let inner ← clauseList
      let _ ← expectKind .parenClose
      let more ← clauseParts
      return .list inner :: more
    | _ => return [] := by
  funext ending ts
  unfold lookAhead
  cases ts with
  | nil => exact clauseParts_none rfl
  | cons t us =>
    rw [show nextToken ending (t :: us) = t from rfl]
    cases hk : t.kind <;> simp only [hk]
    case word =>
      rw [clauseParts_word hk]
      exact Reading.eq_of rfl rfl (List.append_nil _).symm
    case literal v =>
      rw [clauseParts_literal hk]
      exact Reading.eq_of rfl rfl (List.append_nil _).symm
    case parenOpen =>
      rw [clauseParts_list hk]
      refine Reading.eq_of rfl rfl ?_
      change (_ ++ _) ++ _ = _ ++ (_ ++ (_ ++ []))
      rw [List.append_nil, List.append_assoc]
      rfl
    all_goals
      rw [clauseParts_none (by simp [nextToken, Token.isPart, hk])]
      rfl

theorem otherClauses_eq : otherClauses = lookAhead fun t =>
    if t.kind = .comma then do
      let _ ← takeToken
      optionalKeyword "og"
      let next ← oneClause
      let more ← otherClauses
      return next :: more
    else return [] := by
  funext ending ts
  unfold lookAhead
  cases ts with
  | nil =>
    rw [otherClauses]
    rfl
  | cons t us =>
    change _ = (if t.kind = .comma then _ else _ : Reader (List Clause)) ending (t :: us)
    rw [otherClauses]
    by_cases h : t.kind = .comma
    · rw [if_pos h, if_pos h]
      refine Reading.eq_of rfl rfl ?_
      change _ ++ _ = _ ++ (_ ++ [])
      rw [List.append_nil]
      rfl
    · rw [if_neg h, if_neg h]
      rfl

theorem reports_oneClause (ending : Location) (ts : List Token) :
    (oneClause ending ts).reports = emptyClause ending ts ++ (clauseParts ending ts).reports := by
  change (clauseParts ending ts).reports ++
      ((if (!(clauseParts ending ts).value.isEmpty) = true then [] else [_]) ++ []) = _
  rw [List.append_nil, emptyClause]
  cases h : (nextToken ending ts).isPart with
  | true => simp [isEmpty_clauseParts h]
  | false => simp [clauseParts_none h]

/-- From inside a clause its parts are read, and then the clauses after it. -/
theorem clauseRun_split (ending : Location) (ts : List Token) :
    (clauseRun ending ts).value =
        ⟨(clauseParts ending ts).value, (otherClauses ending (clauseParts ending ts).rest).value⟩ ∧
      (clauseRun ending ts).rest = (otherClauses ending (clauseParts ending ts).rest).rest ∧
      (clauseRun ending ts).reports =
        (clauseParts ending ts).reports ++ (otherClauses ending (clauseParts ending ts).rest).reports := by
  fun_induction clauseRun ending ts with
  | case1 =>
    rw [clauseParts, otherClauses]
    exact ⟨rfl, rfl, rfl⟩
  | case2 t us hk r ih =>
    obtain ⟨hvalue, hrest, hreports⟩ := ih
    rw [clauseParts_word hk]
    exact ⟨congrArg (ClauseRun.push _) hvalue, hrest, hreports⟩
  | case3 t us v hk r ih =>
    obtain ⟨hvalue, hrest, hreports⟩ := ih
    rw [clauseParts_literal hk]
    exact ⟨congrArg (ClauseRun.push _) hvalue, hrest, hreports⟩
  | case4 t us hk inner close r _ ih =>
    obtain ⟨hvalue, hrest, hreports⟩ := ih
    rw [clauseParts_list hk]
    refine ⟨congrArg (ClauseRun.push _) hvalue, hrest, ?_⟩
    refine (congrArg (emptyClause ending us ++ inner.reports ++ close.reports ++ ·) hreports).trans ?_
    exact (List.append_assoc _ _ _).symm
  | case5 t us hk vs r ih =>
    obtain ⟨hvalue, hrest, hreports⟩ := ih
    have hpart : (nextToken ending (t :: us)).isPart = false := by
      simp [nextToken, Token.isPart, hk]
    rw [clauseParts_none hpart, otherClauses, if_pos hk]
    refine ⟨?_, hrest, ?_⟩
    · change ClauseRun.mk [] (r.value.clauses _) = ClauseRun.mk [] (_ :: _)
      rw [hvalue]
      rfl
    · change _ ++ r.reports = (oneClause ending vs).reports ++ _
      rw [hreports, reports_oneClause, List.append_assoc]
      rfl
  | case6 t us hw hl hp hc =>
    have hpart : (nextToken ending (t :: us)).isPart = false := by
      change t.isPart = false
      unfold Token.isPart
      split <;> simp_all
    rw [clauseParts_none hpart, otherClauses, if_neg hc]
    exact ⟨rfl, rfl, rfl⟩

theorem clauseList_eq : clauseList = (do
    let first ← oneClause
    let others ← otherClauses
    return first :: others : Reader (List Clause)) := by
  funext ending ts
  obtain ⟨hvalue, hrest, hreports⟩ := clauseRun_split ending ts
  refine Reading.eq_of ?_ hrest ?_
  · change (clauseRun ending ts).value.clauses _ = _
    rw [hvalue]
    rfl
  · change emptyClause ending ts ++ (clauseRun ending ts).reports =
      (oneClause ending ts).reports ++ (_ ++ [])
    rw [hreports, reports_oneClause, List.append_nil, List.append_assoc]
    rfl

/-! ## Sentences -/

/-- A condition with one block or two. -/
def Sentence.whenOr (condition : List Clause) (body : List Sentence) : Option (List Sentence) → Sentence
  | none => .when condition body
  | some other => .whenElse condition body other

/-- Reads the block after `ellers`, if there is one. -/
def optionalBlock : Reader (Option (List Sentence)) := do
  let found ← takeKeyword "ellers"
  if found then do
    let _ ← expectKind .dot
    let other ← block
    return some other
  else return none

/-- Reads one sentence. -/
def oneSentence : Reader Sentence :=
  lookAhead fun t =>
    if t.reads "lad" then do
      let _ ← takeToken
      declaration
    else if t.reads "hvis" then do
      let _ ← takeToken
      let condition ← clauseList
      let _ ← expectKind .dot
      let body ← block
      let other ← optionalBlock
      return .whenOr (resolveClauses condition) body other
    else if t.reads "imens" ∨ t.reads "imedens" then do
      let _ ← takeToken
      let condition ← clauseList
      let _ ← expectKind .dot
      let body ← block
      return .loop (resolveClauses condition) body
    else if t.reads "tilbagegiv" then do
      let _ ← takeToken
      let cs ← clauseList
      let _ ← expectKind .dot
      return .giveBack (resolveClauses cs)
    else do
      let cs ← clauseList
      let _ ← expectKind .dot
      return .express (resolveClauses cs)

/-- **A sentence takes a token, whatever that is.** -/
theorem length_oneSentence_lt {ending : Location} {ts : List Token}
    (h : (nextToken ending ts).kind ≠ .endOfInput) :
    (oneSentence ending ts).rest.length < ts.length := by
  rw [oneSentence, lookAhead]
  have htake : (takeToken ending ts).rest.length < ts.length := length_tail_lt h
  split_ifs
  · exact Reader.length_bind_lt htake
  · exact Reader.length_bind_lt htake
  · exact Reader.length_bind_lt htake
  · exact Reader.length_bind_lt htake
  · cases ts with
    | nil => exact absurd rfl h
    | cons t us => exact length_stoppedClauses_lt ending t us

theorem takeToken_bind_bind {r : Token → Reader α} {s : α → Reader β} {ending : Location} {t : Token}
    {ts : List Token} : ((takeToken >>= r) >>= s) ending (t :: ts) =
      ⟨((r t >>= s) ending ts).value, ((r t >>= s) ending ts).rest, ((r t >>= s) ending ts).reports,
        Nat.le_succ_of_le ((r t >>= s) ending ts).length_le⟩ :=
  rfl

section
variable {ending : Location} {t : Token} {ts us : List Token}

theorem optionalBlock_of_reads (h : nextReads "ellers" ts = true) :
    optionalBlock ending ts =
      let dot := expectKind .dot ending ts.tail
      let other := block ending dot.rest
      ⟨some other.value, other.rest, dot.reports ++ other.reports,
        other.length_le_of_le (dot.length_le_of_le (length_tail_le_of_le (Nat.le_refl _)))⟩ := by
  rw [optionalBlock, takeKeyword_bind_of_reads h]
  refine Reading.eq_of rfl rfl ?_
  simp only [if_true, Reader.reports_bind, Reader.reports_pure, List.append_nil]

theorem optionalBlock_of_not_reads (h : nextReads "ellers" ts = false) :
    optionalBlock ending ts = ⟨none, ts, [], Nat.le_refl _⟩ := by
  rw [optionalBlock, takeKeyword_bind_of_not_reads h]
  rfl

/-- Sentences from a condition on: its block, the other block if there is one, and
    the sentences after them. -/
theorem sentences_when (hstop : ¬(t.kind = .endOfInput ∨ t.reads "farvel" = true))
    (hlad : ¬t.reads "lad" = true) (hhvis : t.reads "hvis" = true) :
    sentences ending (t :: us) =
      let c := condition ending us
      let body := sentences ending c.rest
      let close := blockClosing ending body.rest
      let other := optionalBlock ending close.rest
      let more := sentences ending other.rest
      ⟨.whenOr c.value body.value other.value :: more.value, more.rest,
        c.reports ++ body.reports ++ close.reports ++ other.reports ++ more.reports,
        more.length_le_of_le (other.length_le_of_le (close.length_le_of_le (body.length_le_of_le
          (c.length_le_of_le (Nat.le_succ _)))))⟩ := by
  rw [sentences, if_neg hstop, if_neg hlad, if_pos hhvis]
  let close := blockClosing ending (sentences ending (condition ending us).rest).rest
  cases hellers : nextReads "ellers" close.rest with
  | true =>
    rw [if_pos hellers]
    have hother : optionalBlock ending close.rest = _ := optionalBlock_of_reads hellers
    refine Reading.eq_of ?_ ?_ ?_
    · change _ = Sentence.whenOr _ _ (optionalBlock ending close.rest).value ::
        (sentences ending (optionalBlock ending close.rest).rest).value
      rw [hother]
      rfl
    · change _ = (sentences ending (optionalBlock ending close.rest).rest).rest
      rw [hother]
      rfl
    · change _ = _ ++ (optionalBlock ending close.rest).reports ++
        (sentences ending (optionalBlock ending close.rest).rest).reports
      rw [hother]
      simp only [otherwiseOpening, block, Reader.reports_bind, Reader.reports_pure, List.append_nil, List.append_assoc]
      rfl
  | false =>
    rw [if_neg (by simp [hellers, close])]
    have hother : optionalBlock ending close.rest = _ := optionalBlock_of_not_reads hellers
    refine Reading.eq_of ?_ ?_ ?_
    · change _ = Sentence.whenOr _ _ (optionalBlock ending close.rest).value ::
        (sentences ending (optionalBlock ending close.rest).rest).value
      rw [hother]
      rfl
    · change _ = (sentences ending (optionalBlock ending close.rest).rest).rest
      rw [hother]
    · change _ = _ ++ (optionalBlock ending close.rest).reports ++
        (sentences ending (optionalBlock ending close.rest).rest).reports
      rw [hother, List.append_nil]

end

theorem sentences_eq : sentences = lookAhead fun t =>
    if t.kind = .endOfInput ∨ t.reads "farvel" then return []
    else do
      let s ← oneSentence
      let more ← sentences
      return s :: more := by
  funext ending ts
  cases ts with
  | nil =>
    rw [sentences]
    rfl
  | cons t us =>
    rw [lookAhead_cons]
    by_cases hstop : t.kind = .endOfInput ∨ t.reads "farvel"
    · rw [sentences, if_pos hstop, if_pos hstop]
      rfl
    rw [if_neg hstop, oneSentence, lookAhead_bind_cons]
    split_ifs with hlad hhvis himens hgiv
    · rw [sentences, if_neg hstop, if_pos hlad, takeToken_bind_bind]
      refine Reading.eq_of rfl rfl ?_
      simp only [Reader.reports_bind, Reader.reports_pure, List.append_nil]
    · rw [sentences_when hstop hlad hhvis, takeToken_bind_bind]
      refine Reading.eq_of rfl rfl ?_
      simp only [condition, stoppedClauses, blockOpening, blockClosing, block, Reader.reports_bind,
        Reader.reports_pure, List.append_nil, List.append_assoc]
      rfl
    · rw [sentences, if_neg hstop, if_neg hlad, if_neg hhvis, if_pos himens, takeToken_bind_bind]
      refine Reading.eq_of rfl rfl ?_
      simp only [condition, stoppedClauses, blockOpening, blockClosing, block, Reader.reports_bind,
        Reader.reports_pure, List.append_nil, List.append_assoc]
      rfl
    · rw [sentences, if_neg hstop, if_neg hlad, if_neg hhvis, if_neg himens, if_pos hgiv,
        takeToken_bind_bind]
      refine Reading.eq_of rfl rfl ?_
      simp only [stoppedClauses, Reader.reports_bind, Reader.reports_pure, List.append_nil]
      rfl
    · rw [sentences, if_neg hstop, if_neg hlad, if_neg hhvis, if_neg himens, if_neg hgiv]
      refine Reading.eq_of rfl rfl ?_
      simp only [stoppedClauses, Reader.reports_bind, Reader.reports_pure, List.append_nil]
      rfl

theorem block_eq : block = (do
    let _ ← expectKeyword "goddag"
    let _ ← expectKind .dot
    let body ← sentences
    let _ ← expectKeyword "farvel"
    let _ ← expectKind .dot
    return body : Reader (List Sentence)) := by
  funext ending ts
  refine Reading.eq_of rfl rfl ?_
  simp only [block, blockOpening, blockClosing, Reader.reports_bind, Reader.reports_pure,
    List.append_nil, List.append_assoc]
  rfl

/-! ## Definitions -/

theorem patternParts_eq : patternParts = lookAhead fun t =>
    if t.kind = .endOfInput ∨ t.reads "tilbagegiver" then return []
    else if t.kind = .word then do
      let t ← takeToken
      let more ← patternParts
      return .word t.text :: more
    else if t.kind = .parenOpen then do
      let _ ← takeToken
      let p ← parameter
      let more ← patternParts
      return p :: more
    else return [] := by
  funext ending ts
  cases ts with
  | nil =>
    rw [patternParts]
    rfl
  | cons t us =>
    rw [lookAhead_cons, patternParts]
    by_cases hreads : t.reads "tilbagegiver" = true
    · rw [if_pos hreads, if_pos (.inr hreads)]
      rfl
    rw [if_neg hreads]
    by_cases hend : t.kind = .endOfInput
    · rw [if_pos (show _ ∨ _ from .inl hend), if_neg (by simp [hend]), if_neg (by simp [hend])]
      rfl
    rw [if_neg (not_or.2 ⟨hend, hreads⟩)]
    split_ifs
    · refine Reading.eq_of rfl rfl ?_
      simp only [Reader.reports_bind, Reader.reports_pure, List.append_nil]
      rfl
    · refine Reading.eq_of rfl rfl ?_
      simp only [Reader.reports_bind, Reader.reports_pure, List.append_nil]
      rfl
    · rfl

theorem nextLocation_bind {s : Location → Reader β} :
    (nextLocation >>= s) = lookAhead fun t => s t.location :=
  rfl

/-- Reads `offentlig`, and a definition if `funktion` follows. -/
def oneTurn : Reader (List Definition) := do
  let _ ← expectKeyword "offentlig"
  let found ← takeKeyword "funktion"
  if found then do
    let d ← definition
    return [d]
  else return []

section
variable {ending : Location} {t : Token} {us : List Token}

/-- **A turn takes a token, whatever that is.** -/
theorem length_oneTurn_lt {ts : List Token} (h : (nextToken ending ts).kind ≠ .endOfInput) :
    (oneTurn ending ts).rest.length < ts.length :=
  Reader.length_bind_lt (length_tail_lt h)

theorem oneTurn_of_reads (h : nextReads "funktion" us = true) :
    oneTurn ending (t :: us) =
      let first := expectKeyword "offentlig" ending (t :: us)
      let d := definition ending us.tail
      ⟨[d.value], d.rest, first.reports ++ d.reports,
        d.length_le_of_le (length_tail_le_of_le (Nat.le_succ _))⟩ := by
  rw [oneTurn, expectKeyword_bind_cons, takeKeyword_bind_of_reads h]
  refine Reading.eq_of rfl rfl ?_
  simp only [if_true, Reader.reports_bind, Reader.reports_pure, List.append_nil]

theorem oneTurn_of_not_reads (h : nextReads "funktion" us = false) :
    oneTurn ending (t :: us) =
      ⟨[], us, (expectKeyword "offentlig" ending (t :: us)).reports, Nat.le_succ _⟩ := by
  rw [oneTurn, expectKeyword_bind_cons, takeKeyword_bind_of_not_reads h]
  exact Reading.eq_of rfl rfl (List.append_nil _)

/-- After a turn without a report the next one begins. -/
theorem readDefinitions_turn (hk : t.kind ≠ .endOfInput)
    (h : (oneTurn ending (t :: us)).reports = []) :
    readDefinitions ending (t :: us) =
      let turn := oneTurn ending (t :: us)
      let more := readDefinitions ending turn.rest
      ⟨turn.value ++ more.value, more.rest, more.reports, more.length_le_of_le turn.length_le⟩ := by
  rw [readDefinitions, if_neg hk]
  cases hf : nextReads "funktion" us with
  | true =>
    rw [oneTurn_of_reads hf] at h ⊢
    rw [if_pos rfl, if_pos (List.isEmpty_iff.2 h)]
    rfl
  | false =>
    rw [oneTurn_of_not_reads hf] at h ⊢
    rw [if_neg Bool.false_ne_true, if_pos (List.isEmpty_iff.2 h)]
    rfl

/-- A turn with a report is the last one. -/
theorem readDefinitions_last (hk : t.kind ≠ .endOfInput)
    (h : (oneTurn ending (t :: us)).reports ≠ []) :
    readDefinitions ending (t :: us) = oneTurn ending (t :: us) := by
  rw [readDefinitions, if_neg hk]
  cases hf : nextReads "funktion" us with
  | true =>
    rw [oneTurn_of_reads hf] at h ⊢
    rw [if_pos rfl, if_neg (fun he => h (List.isEmpty_iff.1 he))]
  | false =>
    rw [oneTurn_of_not_reads hf] at h ⊢
    rw [if_neg Bool.false_ne_true, if_neg (fun he => h (List.isEmpty_iff.1 he))]

end

/-- **Without a report, reading goes on to the end of input.** -/
theorem readDefinitions_stops (ending : Location) (ts : List Token)
    (h : (readDefinitions ending ts).reports = []) :
    (nextToken ending (readDefinitions ending ts).rest).kind = .endOfInput := by
  cases ts with
  | nil =>
    rw [readDefinitions]
    rfl
  | cons t us =>
    by_cases hk : t.kind = .endOfInput
    · rw [readDefinitions, if_pos hk]
      exact hk
    by_cases hturn : (oneTurn ending (t :: us)).reports = []
    · rw [readDefinitions_turn hk hturn] at h ⊢
      have hlt : (oneTurn ending (t :: us)).rest.length < (t :: us).length := length_oneTurn_lt hk
      exact readDefinitions_stops ending _ h
    · rw [readDefinitions_last hk hturn] at h
      exact absurd h hturn
termination_by ts.length

end DanishProse

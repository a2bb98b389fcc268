/-
  Documents read from tokens.

  The forms, with keywords in any letter case:

      document    definition*
      definition  offentlig funktion (WORD | ( WORD som WORD ))* tilbagegiver WORD . block
      block       goddag . sentence* farvel .
      sentence    lad WORD være [en] [et] WORD .
                | hvis clauses . block [ellers . block]
                | (imens | imedens) clauses . block
                | tilbagegiv clauses .
                | clauses .
      clauses     clause (, [og] clause)*
      clause      (WORD | LITERAL | ( clauses ))+

  `clauseRun`, `sentences`, `patternParts` and `readDefinitions` read the repeated
  forms, each by recursion on the tokens that are left.  The clauses of a
  sentence are given with their pronouns resolved.  After a definition with a
  report no other definition is begun, and none at all if there was a report
  before.
-/
import DanishProse.Prose.Document
import DanishProse.Prose.Pronoun
import DanishProse.Prose.Reading

namespace DanishProse

/-! ## Clauses -/

/-- A clause goes on with this token. -/
def Token.isPart (t : Token) : Bool :=
  match t.kind with
  | .word | .literal _ | .parenOpen => true
  | _ => false

/-- The report on a clause without parts. -/
def emptyClause (ending : Location) (ts : List Token) : List Report :=
  let t := nextToken ending ts
  if t.isPart then [] else [⟨.expectedClause, t.location⟩]

/-- The rest of a clause, and the clauses after it. -/
structure ClauseRun where
  parts : List Part
  others : List Clause

/-- Puts a part in front of the rest of a clause. -/
def ClauseRun.push (p : Part) (r : ClauseRun) : ClauseRun :=
  { r with parts := p :: r.parts }

/-- The whole list, when the first clause begins at a place. -/
def ClauseRun.clauses (r : ClauseRun) (l : Location) : List Clause :=
  .mk l r.parts :: r.others

/-- Reads from inside a clause up to the end of its list. -/
def clauseRun (ending : Location) (ts : List Token) : Reading ts ClauseRun :=
  match ts with
  | [] => ⟨⟨[], []⟩, [], [], Nat.le_refl _⟩
  | t :: us =>
    match t.kind with
    | .word =>
      let r := clauseRun ending us
      ⟨r.value.push (.word t.text), r.rest, r.reports, r.length_le_of_le (Nat.le_succ _)⟩
    | .literal v =>
      let r := clauseRun ending us
      ⟨r.value.push (.literal v), r.rest, r.reports, r.length_le_of_le (Nat.le_succ _)⟩
    | .parenOpen =>
      let inner := clauseRun ending us
      let close := expectKind .parenClose ending inner.rest
      let r := clauseRun ending close.rest
      ⟨r.value.push (.list (inner.value.clauses (nextToken ending us).location)), r.rest,
        emptyClause ending us ++ inner.reports ++ close.reports ++ r.reports,
        r.length_le_of_le (close.length_le_of_le (inner.length_le_of_le (Nat.le_succ _)))⟩
    | .comma =>
      let vs := dropKeyword "og" us
      let r := clauseRun ending vs
      ⟨⟨[], r.value.clauses (nextToken ending vs).location⟩, r.rest,
        emptyClause ending vs ++ r.reports,
        r.length_le_of_le (Nat.le_succ_of_le (length_dropKeyword_le "og" us))⟩
    | _ => ⟨⟨[], []⟩, t :: us, [], Nat.le_refl _⟩
termination_by ts.length
decreasing_by
  · exact Nat.lt_succ_self _
  · exact Nat.lt_succ_self _
  · exact Nat.lt_succ_self _
  · exact Nat.lt_succ_of_le (Nat.le_trans close.length_le inner.length_le)
  · exact Nat.lt_succ_of_le (length_dropKeyword_le "og" us)

/-- Reads a clause list. -/
def clauseList : Reader (List Clause) :=
  fun ending ts =>
    let r := clauseRun ending ts
    ⟨r.value.clauses (nextToken ending ts).location, r.rest, emptyClause ending ts ++ r.reports,
      r.length_le⟩

/-! ## Sentences -/

/-- Clauses up to the full stop. -/
def stoppedClauses : Reader (List Clause) := do
  let cs ← clauseList
  let _ ← expectKind .dot
  return resolveClauses cs

/-- What stands before the sentences of a block. -/
def blockOpening : Reader Unit := do
  let _ ← expectKeyword "goddag"
  let _ ← expectKind .dot
  return ()

/-- What stands after the sentences of a block. -/
def blockClosing : Reader Unit := do
  let _ ← expectKeyword "farvel"
  let _ ← expectKind .dot
  return ()

/-- A condition, up to the sentences that hang on it. -/
def condition : Reader (List Clause) := do
  let cs ← stoppedClauses
  blockOpening
  return cs

/-- What stands between `ellers` and the sentences after it. -/
def otherwiseOpening : Reader Unit := do
  let _ ← expectKind .dot
  blockOpening

/-- A declaration after its first word. -/
def declaration : Reader Sentence := do
  let name ← expectKind .word
  let _ ← expectKeyword "være"
  optionalKeyword "en"
  optionalKeyword "et"
  let typeName ← expectKind .word
  let _ ← expectKind .dot
  return .declare name.text typeName.text name.location

theorem length_stoppedClauses_lt (ending : Location) (t : Token) (ts : List Token) :
    (stoppedClauses ending (t :: ts)).rest.length < (t :: ts).length := by
  have h := (clauseList ending (t :: ts)).length_le
  change (clauseList ending (t :: ts)).rest.tail.length < (t :: ts).length
  simp only [List.length_tail, List.length_cons] at *
  omega

/-- Reads sentences up to `farvel` or the end of input. -/
def sentences (ending : Location) (ts : List Token) : Reading ts (List Sentence) :=
  match ts with
  | [] => ⟨[], [], [], Nat.le_refl _⟩
  | t :: us =>
    if t.kind = .endOfInput ∨ t.reads "farvel" then ⟨[], t :: us, [], Nat.le_refl _⟩
    else if t.reads "lad" then
      let d := declaration ending us
      let more := sentences ending d.rest
      ⟨d.value :: more.value, more.rest, d.reports ++ more.reports,
        more.length_le_of_le (d.length_le_of_le (Nat.le_succ _))⟩
    else if t.reads "hvis" then
      let c := condition ending us
      let body := sentences ending c.rest
      let close := blockClosing ending body.rest
      if nextReads "ellers" close.rest then
        let o := otherwiseOpening ending close.rest.tail
        let other := sentences ending o.rest
        let close₂ := blockClosing ending other.rest
        let more := sentences ending close₂.rest
        ⟨.whenElse c.value body.value other.value :: more.value, more.rest,
          c.reports ++ body.reports ++ close.reports ++ o.reports ++ other.reports ++
            close₂.reports ++ more.reports,
          more.length_le_of_le (close₂.length_le_of_le (other.length_le_of_le
            (o.length_le_of_le (length_tail_le_of_le (close.length_le_of_le
              (body.length_le_of_le (c.length_le_of_le (Nat.le_succ _))))))))⟩
      else
        let more := sentences ending close.rest
        ⟨.when c.value body.value :: more.value, more.rest,
          c.reports ++ body.reports ++ close.reports ++ more.reports,
          more.length_le_of_le (close.length_le_of_le (body.length_le_of_le
            (c.length_le_of_le (Nat.le_succ _))))⟩
    else if t.reads "imens" ∨ t.reads "imedens" then
      let c := condition ending us
      let body := sentences ending c.rest
      let close := blockClosing ending body.rest
      let more := sentences ending close.rest
      ⟨.loop c.value body.value :: more.value, more.rest,
        c.reports ++ body.reports ++ close.reports ++ more.reports,
        more.length_le_of_le (close.length_le_of_le (body.length_le_of_le
          (c.length_le_of_le (Nat.le_succ _))))⟩
    else if t.reads "tilbagegiv" then
      let c := stoppedClauses ending us
      let more := sentences ending c.rest
      ⟨.giveBack c.value :: more.value, more.rest, c.reports ++ more.reports,
        more.length_le_of_le (c.length_le_of_le (Nat.le_succ _))⟩
    else
      let c := stoppedClauses ending (t :: us)
      let more := sentences ending c.rest
      ⟨.express c.value :: more.value, more.rest, c.reports ++ more.reports,
        more.length_le_of_le c.length_le⟩
termination_by ts.length
decreasing_by
  all_goals first
    | exact length_stoppedClauses_lt ending t us
    | refine Nat.lt_succ_of_le ?_
      repeat first
        | refine Reading.length_le_of_le _ ?_
        | refine length_tail_le_of_le ?_
        | exact Nat.le_refl _

/-- Reads a block. -/
def block : Reader (List Sentence) := do
  blockOpening
  let body ← sentences
  blockClosing
  return body

/-! ## Definitions -/

/-- A parameter after its opening bracket. -/
def parameter : Reader PatternPart := do
  let name ← expectKind .word
  let _ ← expectKeyword "som"
  let typeName ← expectKind .word
  let _ ← expectKind .parenClose
  return .parameter name.text typeName.text

/-- Reads a pattern up to `tilbagegiver`, or up to a token that cannot belong to
    it. -/
def patternParts (ending : Location) (ts : List Token) : Reading ts (List PatternPart) :=
  match ts with
  | [] => ⟨[], [], [], Nat.le_refl _⟩
  | t :: us =>
    if t.reads "tilbagegiver" then ⟨[], t :: us, [], Nat.le_refl _⟩
    else if t.kind = .word then
      let more := patternParts ending us
      ⟨.word t.text :: more.value, more.rest, more.reports, more.length_le_of_le (Nat.le_succ _)⟩
    else if t.kind = .parenOpen then
      let p := parameter ending us
      let more := patternParts ending p.rest
      ⟨p.value :: more.value, more.rest, p.reports ++ more.reports,
        more.length_le_of_le (p.length_le_of_le (Nat.le_succ _))⟩
    else ⟨[], t :: us, [], Nat.le_refl _⟩
termination_by ts.length
decreasing_by
  · exact Nat.lt_succ_self _
  · exact Nat.lt_succ_of_le p.length_le

/-- Reads a definition after its first two words. -/
def definition : Reader Definition := do
  let location ← nextLocation
  let parts ← patternParts
  let _ ← expectKeyword "tilbagegiver"
  let returnName ← expectKind .word
  let _ ← expectKind .dot
  let body ← block
  return ⟨⟨parts⟩, returnName.text, body, location⟩

/-- Reads definitions up to the end of input or the first report.  What follows
    `offentlig` is a definition if it begins with `funktion`, and another
    `offentlig` if not. -/
def readDefinitions (ending : Location) (ts : List Token) : Reading ts (List Definition) :=
  match ts with
  | [] => ⟨[], [], [], Nat.le_refl _⟩
  | t :: us =>
    if t.kind = .endOfInput then ⟨[], t :: us, [], Nat.le_refl _⟩
    else
      let reports := (expectKeyword "offentlig" ending (t :: us)).reports
      if nextReads "funktion" us then
        let d := definition ending us.tail
        if (reports ++ d.reports).isEmpty then
          let more := readDefinitions ending d.rest
          ⟨d.value :: more.value, more.rest, more.reports,
            more.length_le_of_le (d.length_le_of_le (length_tail_le_of_le (Nat.le_succ _)))⟩
        else
          ⟨[d.value], d.rest, reports ++ d.reports,
            d.length_le_of_le (length_tail_le_of_le (Nat.le_succ _))⟩
      else if reports.isEmpty then
        let more := readDefinitions ending us
        ⟨more.value, more.rest, more.reports, more.length_le_of_le (Nat.le_succ _)⟩
      else ⟨[], us, reports, Nat.le_succ _⟩
termination_by ts.length
decreasing_by
  · exact Nat.lt_succ_of_le (Reading.length_le_of_le _ (length_tail_le_of_le (Nat.le_refl _)))
  · exact Nat.lt_succ_self _

/-! ## Documents -/

/-- The place of the last token. -/
def lastLocation (ts : List Token) : Location :=
  (ts.getLast?.map Token.location).getD .start

/-- The definitions that tokens hold, comments aside, and the reports on the
    way.  Nothing is read unless the tokens are clean of reports. -/
def Document.ofTokens (clean : Bool) (ts : List Token) : Document × List Report :=
  if clean then
    let r := readDefinitions (lastLocation ts) (ts.filter (·.kind ≠ .comment))
    (⟨r.value⟩, r.reports)
  else (⟨[]⟩, [])

end DanishProse

/-
  Reading comes to an end.

  A walk (`Proofs/Walks.lean`) goes by positions and has no bound on its loops.
  From every cursor that stands right it ends, though, with what the reader for
  the same form reads there (`Walk.Follows`).

  * `Cursor.Settled`: the positions behind the cursor are in order, every piece of
    its log ends with less to read than it started with, and it does not stand at a
    comment;
  * one lemma for each walk says what it follows, by recursion on what is left to
    read; walks in a row follow readers in a row (`Walk.Follows.bind`);
  * `document_walk_ends` puts this together for a document.
-/
import Mathlib.Data.List.GetD
import Mathlib.Data.List.TakeWhile
import Mathlib.Tactic.Common
import DanishProse.Proofs.Unrolled
import DanishProse.Proofs.Walks

namespace DanishProse

variable {α β γ δ : Type} {tokens : Tokens} {c last : Cursor}

/-! ## What is left to read -/

theorem Tokens.tokenAt_of_le {p : Nat} (h : tokens.length ≤ p) :
    tokens.tokenAt p = ⟨.endOfInput, "", lastLocation tokens⟩ := by
  rw [Tokens.tokenAt, List.getD_eq_default _ _ h]

theorem Tokens.leftFrom_of_le {p : Nat} (h : tokens.length ≤ p) : tokens.leftFrom p = [] := by
  rw [Tokens.leftFrom, List.drop_eq_nil_of_le h, List.filter_nil]

theorem Tokens.drop_eq_tokenAt {p : Nat} (h : p < tokens.length) :
    tokens.drop p = tokens.tokenAt p :: tokens.drop (p + 1) := by
  rw [Tokens.tokenAt, List.getD_eq_getElem _ _ h, List.drop_eq_getElem_cons h]

theorem Tokens.leftFrom_comment {p : Nat} (h : (tokens.tokenAt p).kind = .comment) :
    p < tokens.length ∧ tokens.leftFrom (p + 1) = tokens.leftFrom p := by
  have hp : p < tokens.length := by
    by_contra hp
    rw [Tokens.tokenAt_of_le (Nat.le_of_not_lt hp)] at h
    cases h
  refine ⟨hp, ?_⟩
  rw [Tokens.leftFrom, Tokens.leftFrom, Tokens.drop_eq_tokenAt hp, List.filter_cons_of_neg (by simp [h])]

theorem Tokens.leftFrom_cons {p : Nat} (hp : p < tokens.length)
    (h : (tokens.tokenAt p).kind ≠ .comment) :
    tokens.leftFrom p = tokens.tokenAt p :: tokens.leftFrom (p + 1) := by
  rw [Tokens.leftFrom, Tokens.drop_eq_tokenAt hp, List.filter_cons_of_pos (by simp [h])]
  rfl

/-! ## Cursors -/

/-- Nothing that a cursor has behind it went wrong. -/
structure Cursor.Sound (tokens : Tokens) (c : Cursor) : Prop where
  within : c.position ≤ tokens.length
  path : c.path.Pairwise (· ≤ ·)
  progress : ∀ e ∈ c.log, e.Progresses tokens

/-- A cursor that stands at something to read, or at the end. -/
structure Cursor.Settled (tokens : Tokens) (c : Cursor) : Prop extends c.Sound tokens where
  atToken : (tokens.tokenAt c.position).kind ≠ .comment

theorem Cursor.start_sound (tokens : Tokens) (reports : List Report) :
    (Cursor.start reports).Sound tokens where
  within := Nat.zero_le _
  path := List.pairwise_singleton _ _
  progress := by simp [Cursor.start]

theorem Cursor.Settled.nextToken_left (h : c.Settled tokens) :
    nextToken (lastLocation tokens) (c.left tokens) = tokens.tokenAt c.position := by
  by_cases hp : c.position < tokens.length
  · rw [Cursor.left, Tokens.leftFrom_cons hp h.atToken]
    rfl
  · have hp := Nat.le_of_not_lt hp
    rw [Cursor.left, Tokens.leftFrom_of_le hp, Tokens.tokenAt_of_le hp]
    rfl

/-- The cursor one position further, inside the tokens, is sound. -/
theorem Cursor.Sound.moved (h : c.Sound tokens) (hp : c.position < tokens.length) :
    c.moved.Sound tokens where
  within := hp
  path := by
    refine List.pairwise_append.2 ⟨h.path, List.pairwise_singleton _ _, ?_⟩
    intro a ha b hb
    rw [List.mem_singleton.1 hb]
    have := List.pairwise_append.1 h.path
    rcases List.mem_append.1 ha with ha | ha
    · exact Nat.le_succ_of_le (this.2.2 a ha _ (List.mem_singleton.2 rfl))
    · rw [List.mem_singleton.1 ha]
      exact Nat.le_succ _
  progress := h.progress

/-- The cursor is sound with a piece more in its log that ends with less to read. -/
theorem Cursor.Settled.logged (h : c.Settled tokens) (stretch : Stretch) {entry : Nat}
    (hlt : (c.left tokens).length < (tokens.leftFrom entry).length) :
    (c.logged stretch entry).Settled tokens := by
  refine ⟨⟨h.within, h.path, ?_⟩, h.atToken⟩
  intro e he
  rcases List.mem_append.1 he with he | he
  · exact h.progress e he
  · rw [List.mem_singleton.1 he]
    exact hlt

/-! ## Walks beside readers -/

/-- One cursor after another: what was left there, and what was reported in
    between. -/
structure Cursor.Leads (tokens : Tokens) (c last : Cursor) (rest : List Token)
    (reports : List Report) : Prop where
  settled : last.Settled tokens
  left : last.left tokens = rest
  reports : last.reports = c.reports ++ reports

/-- From a cursor, a walk comes to an end with what a reader reads there; `f`
    compares the values. -/
def Walk.Follows (tokens : Tokens) (w : Walk α) (c : Cursor) (f : α → β) (r : Reader β) : Prop :=
  let read := r (lastLocation tokens) (c.left tokens)
  ∃ a last, w c = some (a, last) ∧ f a = read.value ∧ c.Leads tokens last read.rest read.reports

theorem Walk.bind_eq {w : Walk α} {k : α → Walk β} {a : α} (h : w c = some (a, last)) :
    (w >>= k) c = k a last := by
  change ((w c).bind fun p => k p.1 p.2) = k a last
  rw [h]
  rfl

namespace Walk.Follows

/-- What is read in a row is followed in a row. -/
theorem seq {w : Walk α} {k : α → Walk γ} {f : α → β} {g : γ → δ} {r : Reader β} {s : β → Reader δ}
    (hw : w.Follows tokens c f r)
    (hk : ∀ a last, last.Settled tokens →
      last.left tokens = (r (lastLocation tokens) (c.left tokens)).rest →
        (k a).Follows tokens last g (s (f a))) :
    (w >>= k).Follows tokens c g (r >>= s) := by
  obtain ⟨a, mid, hrun, hvalue, hmid⟩ := hw
  obtain ⟨b, last, hrun', hvalue', hlast⟩ := hk a mid hmid.settled hmid.left
  rw [hvalue, hmid.left] at hvalue' hlast
  refine ⟨b, last, (bind_eq hrun).trans hrun', hvalue', hlast.settled, hlast.left, ?_⟩
  rw [hlast.reports, hmid.reports, List.append_assoc]
  rfl

/-- The second walk starts with no more to read than the first one. -/
theorem bind {w : Walk α} {k : α → Walk γ} {f : α → β} {g : γ → δ} {r : Reader β} {s : β → Reader δ}
    (hw : w.Follows tokens c f r)
    (hk : ∀ a last, last.Settled tokens → (last.left tokens).length ≤ (c.left tokens).length →
      (k a).Follows tokens last g (s (f a))) :
    (w >>= k).Follows tokens c g (r >>= s) := by
  refine hw.seq fun a last hlast hleft => hk a last hlast ?_
  rw [hleft]
  exact Reading.length_le _

theorem pure {a : α} {f : α → β} {b : β} (h : c.Settled tokens) (hv : f a = b) :
    (Pure.pure a : Walk α).Follows tokens c f (Pure.pure b) :=
  ⟨a, c, rfl, hv, h, rfl, (List.append_nil _).symm⟩

end Walk.Follows

namespace Tokens

/-! ## Single tokens -/

theorem follows_peek {k : Token → Walk γ} {g : γ → δ} {s : Token → Reader δ}
    (h : c.Settled tokens)
    (hk : (k (nextToken (lastLocation tokens) (c.left tokens))).Follows tokens c g
      (s (nextToken (lastLocation tokens) (c.left tokens)))) :
    (tokens.peek >>= k).Follows tokens c g (lookAhead s) := by
  rw [h.nextToken_left] at hk
  obtain ⟨a, last, hrun, hread⟩ := hk
  refine ⟨a, last, hrun, ?_⟩
  rw [← h.nextToken_left] at hread
  exact hread

theorem follows_position {k : Nat → Walk γ} {g : γ → δ} {s : Reader δ}
    (hk : (k c.position).Follows tokens c g s) : (Walk.position >>= k).Follows tokens c g s :=
  hk

/-- A piece of the walk is logged that ends with less to read. -/
theorem follows_record {stretch : Stretch} {entry : Nat} {k : Unit → Walk γ} {g : γ → δ} {s : Reader δ}
    (h : c.Settled tokens) (hlt : (c.left tokens).length < (tokens.leftFrom entry).length)
    (hk : ∀ mid : Cursor, mid.Settled tokens → (mid.left tokens).length = (c.left tokens).length →
      (k ()).Follows tokens mid g s) :
    (Walk.record stretch entry >>= k).Follows tokens c g s := by
  obtain ⟨a, last, hrun, hvalue, hlast⟩ := hk _ (h.logged stretch hlt) rfl
  exact ⟨a, last, hrun, hvalue, hlast.settled, hlast.left, hlast.reports⟩

theorem follows_expect {well : Bool} {r : Report} (h : c.Settled tokens) :
    (Walk.expect well r).Follows tokens c id (note well r) :=
  ⟨(), _, rfl, rfl, ⟨⟨h.within, h.path, h.progress⟩, h.atToken⟩, rfl, rfl⟩

/-- **Comments come to an end**, and nothing that there is to read is passed with
    them. -/
theorem skipComments_leads (c : Cursor) (h : c.Sound tokens) :
    ∃ last, tokens.skipComments c = some ((), last) ∧ c.Leads tokens last (c.left tokens) [] := by
  rw [skipComments, Walk.bind_eq (show tokens.peek c = some (_, c) from rfl)]
  split
  · next hk =>
    obtain ⟨hp, hfrom⟩ := leftFrom_comment hk
    obtain ⟨last, hrun, hlast⟩ := skipComments_leads _ (h.moved hp)
    exact ⟨last, hrun, hlast.settled, hlast.left.trans hfrom, hlast.reports⟩
  · next hk => exact ⟨c, rfl, ⟨h, hk⟩, rfl, (List.append_nil _).symm⟩
termination_by tokens.length - c.position
decreasing_by exact Nat.sub_succ_lt_self _ _ hp

theorem advance_follows (h : c.Settled tokens) : tokens.advance.Follows tokens c id takeToken := by
  by_cases hp : c.position < tokens.length
  · obtain ⟨last, hrun, hlast⟩ := skipComments_leads _ (h.moved hp)
    refine ⟨tokens.tokenAt c.position, last, ?_, h.nextToken_left.symm, hlast.settled, ?_, hlast.reports⟩
    · rw [advance, Walk.bind_eq (show tokens.peek c = some (_, c) from rfl),
        Walk.bind_eq (show Walk.position c = some (_, c) from rfl), if_pos hp,
        Walk.bind_eq (show Walk.move c = some ((), _) from rfl)]
      exact Walk.bind_eq hrun
    · rw [hlast.left]
      change _ = (tokens.leftFrom c.position).tail
      rw [leftFrom_cons hp h.atToken]
      rfl
  · obtain ⟨last, hrun, hlast⟩ := skipComments_leads c h.toSound
    refine ⟨tokens.tokenAt c.position, last, ?_, h.nextToken_left.symm, hlast.settled, ?_, hlast.reports⟩
    · rw [advance, Walk.bind_eq (show tokens.peek c = some (_, c) from rfl),
        Walk.bind_eq (show Walk.position c = some (_, c) from rfl), if_neg hp]
      exact Walk.bind_eq hrun
    · rw [hlast.left]
      change tokens.leftFrom c.position = (tokens.leftFrom c.position).tail
      rw [leftFrom_of_le (Nat.le_of_not_lt hp)]
      rfl

theorem consume_follows (kind : TokenKind) (h : c.Settled tokens) :
    (tokens.consume kind).Follows tokens c id (expectKind kind) := by
  rw [consume, expectKind_eq]
  refine (advance_follows h).bind fun t mid hmid _ => ?_
  exact (follows_expect hmid).bind fun _ last hlast _ => .pure hlast rfl

theorem consumeText_follows (keyword : String) (h : c.Settled tokens) :
    (tokens.consumeText keyword).Follows tokens c id (expectKeyword keyword) := by
  rw [consumeText, expectKeyword_eq]
  refine (advance_follows h).bind fun t mid hmid _ => ?_
  exact (follows_expect hmid).bind fun _ last hlast _ => .pure hlast rfl

theorem takeText_follows {keyword : String} (hk : Text.sameWord "" keyword = false)
    (h : c.Settled tokens) : (tokens.takeText keyword).Follows tokens c id (takeKeyword keyword) := by
  have hreads := nextToken_reads hk (lastLocation tokens) (c.left tokens)
  rw [h.nextToken_left] at hreads
  rw [takeText, Walk.Follows, Walk.bind_eq (show tokens.peek c = some (_, c) from rfl), hreads]
  cases hnext : nextReads keyword (c.left tokens) with
  | true =>
    obtain ⟨t, last, hrun, -, hlast⟩ := advance_follows h
    refine ⟨true, last, Walk.bind_eq hrun, hnext.symm, hlast.settled, ?_, hlast.reports⟩
    exact hlast.left.trans (if_pos hnext).symm
  | false =>
    refine ⟨false, c, rfl, hnext.symm, h, ?_, (List.append_nil _).symm⟩
    exact (if_neg (by simp [hnext])).symm

theorem takeText_follows_optional {keyword : String} (hk : Text.sameWord "" keyword = false)
    (h : c.Settled tokens) :
    (tokens.takeText keyword).Follows tokens c (fun _ => ()) (optionalKeyword keyword) := by
  obtain ⟨b, last, hrun, -, hlast⟩ := takeText_follows hk h
  exact ⟨b, last, hrun, rfl, hlast⟩

/-- Where there is something to read, a token is taken and less is left. -/
theorem follows_advance {k : Token → Walk γ} {g : γ → δ} {s : Token → Reader δ}
    (h : c.Settled tokens)
    (hsome : (nextToken (lastLocation tokens) (c.left tokens)).kind ≠ .endOfInput)
    (hk : ∀ t (mid : Cursor), mid.Settled tokens → (mid.left tokens).length < (c.left tokens).length →
      (k t).Follows tokens mid g (s t)) :
    (tokens.advance >>= k).Follows tokens c g (takeToken >>= s) := by
  refine (advance_follows h).seq fun t mid hmid hleft => hk t mid hmid ?_
  rw [hleft]
  exact length_tail_lt hsome

/-! ## Clauses -/

-- The measure counts what is left to read.  The last summand orders the walks that call
-- each other before anything has been taken.
mutual

theorem clauseParts_follows (c : Cursor) (entry : Nat) (h : c.Settled tokens)
    (hentry : (c.left tokens).length ≤ (tokens.leftFrom entry).length) :
    (tokens.clauseParts entry).Follows tokens c id DanishProse.clauseParts := by
  rw [clauseParts, clauseParts_eq]
  refine follows_peek h ?_
  cases hk : (nextToken (lastLocation tokens) (c.left tokens)).kind
  case word =>
    refine follows_advance h (by simp [hk]) fun t mid hmid hlt => ?_
    refine (clauseParts_follows mid entry hmid (by omega)).bind fun ps last hlast _ => ?_
    exact .pure hlast rfl
  case literal v =>
    refine follows_advance h (by simp [hk]) fun t mid hmid hlt => ?_
    refine (clauseParts_follows mid entry hmid (by omega)).bind fun ps last hlast _ => ?_
    exact .pure hlast rfl
  case parenOpen =>
    refine follows_advance h (by simp [hk]) fun t c₁ h₁ hlt => ?_
    refine follows_record h₁ (by omega) fun c₂ h₂ heq => ?_
    refine (clauseList_follows c₂ h₂).bind fun cs c₃ h₃ hle₃ => ?_
    refine (consume_follows .parenClose h₃).bind fun u c₄ h₄ hle₄ => ?_
    refine (clauseParts_follows c₄ entry h₄ (by omega)).bind fun ps last hlast _ => ?_
    exact .pure hlast rfl
  all_goals exact .pure h rfl
termination_by 3 * (c.left tokens).length
decreasing_by all_goals omega

theorem clause_follows (c : Cursor) (entry : Nat) (h : c.Settled tokens)
    (hentry : (c.left tokens).length ≤ (tokens.leftFrom entry).length) :
    (tokens.clause entry).Follows tokens c id oneClause := by
  rw [clause, oneClause]
  refine follows_peek h ?_
  refine (clauseParts_follows c entry h hentry).bind fun ps mid hmid _ => ?_
  refine (follows_expect hmid).bind fun _ last hlast _ => ?_
  exact .pure hlast rfl
termination_by 3 * (c.left tokens).length + 1
decreasing_by omega

theorem otherClauses_follows (c : Cursor) (entry : Nat) (h : c.Settled tokens)
    (hentry : (c.left tokens).length ≤ (tokens.leftFrom entry).length) :
    (tokens.otherClauses entry).Follows tokens c id DanishProse.otherClauses := by
  rw [otherClauses, otherClauses_eq]
  refine follows_peek h ?_
  split_ifs with hk
  · refine follows_advance h (by simp [hk]) fun t c₁ h₁ hlt => ?_
    refine (takeText_follows_optional (by decide) h₁).bind fun _ c₂ h₂ hle₂ => ?_
    refine (clause_follows c₂ entry h₂ (by omega)).bind fun next c₃ h₃ hle₃ => ?_
    refine (otherClauses_follows c₃ entry h₃ (by omega)).bind fun cs last hlast _ => ?_
    exact .pure hlast rfl
  · exact .pure h rfl
termination_by 3 * (c.left tokens).length
decreasing_by all_goals omega

theorem clauseList_follows (c : Cursor) (h : c.Settled tokens) :
    tokens.clauseList.Follows tokens c id DanishProse.clauseList := by
  rw [clauseList, clauseList_eq]
  refine follows_position ?_
  refine (clause_follows c c.position h (Nat.le_refl _)).bind fun first mid hmid hle => ?_
  refine (otherClauses_follows mid c.position hmid hle).bind fun cs last hlast _ => ?_
  exact .pure hlast rfl
termination_by 3 * (c.left tokens).length + 2
decreasing_by all_goals omega

end

/-- `A ( B` with a comment in it: the bracket is never closed, which is reported, and
    the list inside begins two tokens after the one around it. -/
example :
    let tokens : Tokens := [⟨.word, "A", .start⟩, ⟨.parenOpen, "(", .start⟩,
      ⟨.comment, "$", .start⟩, ⟨.word, "B", .start⟩]
    (tokens.clauseList (.start [])).map (fun r => (r.2.position, r.2.reports, r.2.log)) =
      some (4, [⟨.unexpectedToken "')'" "end of input", .start⟩], [⟨.nesting, 0, 3⟩]) := by
  cbv

/-! ## Sentences -/

theorem declaration_follows (h : c.Settled tokens) :
    tokens.declaration.Follows tokens c Sentence.resolved DanishProse.declaration := by
  rw [declaration, DanishProse.declaration]
  refine (consume_follows .word h).bind fun name c₁ h₁ _ => ?_
  refine (consumeText_follows "være" h₁).bind fun _ c₂ h₂ _ => ?_
  refine (takeText_follows_optional (by decide) h₂).bind fun _ c₃ h₃ _ => ?_
  refine (takeText_follows_optional (by decide) h₃).bind fun _ c₄ h₄ _ => ?_
  refine (consume_follows .word h₄).bind fun typeName c₅ h₅ _ => ?_
  refine (consume_follows .dot h₅).bind fun _ last hlast _ => ?_
  exact .pure hlast rfl

-- A sentence is followed up to the pronouns in its own clauses: the block around it
-- resolves them.
mutual

theorem sentence_follows (c : Cursor) (h : c.Settled tokens)
    (hsome : (nextToken (lastLocation tokens) (c.left tokens)).kind ≠ .endOfInput) :
    tokens.sentence.Follows tokens c Sentence.resolved oneSentence := by
  rw [sentence, oneSentence]
  refine follows_peek h ?_
  split_ifs
  · exact follows_advance h hsome fun _ mid hmid _ => declaration_follows hmid
  · refine follows_advance h hsome fun _ c₁ h₁ hlt => ?_
    refine (clauseList_follows c₁ h₁).bind fun cs c₂ h₂ hle₂ => ?_
    refine (consume_follows .dot h₂).bind fun _ c₃ h₃ hle₃ => ?_
    refine (block_follows c₃ h₃).bind fun body c₄ h₄ hle₄ => ?_
    refine (otherwise_follows c₄ h₄).bind fun other last hlast _ => ?_
    cases other <;> exact .pure hlast rfl
  · refine follows_advance h hsome fun _ c₁ h₁ hlt => ?_
    refine (clauseList_follows c₁ h₁).bind fun cs c₂ h₂ hle₂ => ?_
    refine (consume_follows .dot h₂).bind fun _ c₃ h₃ hle₃ => ?_
    refine (block_follows c₃ h₃).bind fun body last hlast _ => ?_
    exact .pure hlast rfl
  · refine follows_advance h hsome fun _ c₁ h₁ _ => ?_
    refine (clauseList_follows c₁ h₁).bind fun cs c₂ h₂ _ => ?_
    refine (consume_follows .dot h₂).bind fun _ last hlast _ => ?_
    exact .pure hlast rfl
  · refine (clauseList_follows c h).bind fun cs c₁ h₁ _ => ?_
    refine (consume_follows .dot h₁).bind fun _ last hlast _ => ?_
    exact .pure hlast rfl
termination_by 4 * (c.left tokens).length
decreasing_by all_goals omega

theorem otherwise_follows (c : Cursor) (h : c.Settled tokens) :
    tokens.otherwise.Follows tokens c id optionalBlock := by
  rw [otherwise, optionalBlock]
  refine (takeText_follows (by decide) h).bind fun found c₁ h₁ hle₁ => ?_
  cases found with
  | true =>
    refine (consume_follows .dot h₁).bind fun _ c₂ h₂ hle₂ => ?_
    refine (block_follows c₂ h₂).bind fun other last hlast _ => ?_
    exact .pure hlast rfl
  | false => exact .pure h₁ rfl
termination_by 4 * (c.left tokens).length + 3
decreasing_by omega

theorem sentences_follows (c : Cursor) (h : c.Settled tokens) :
    tokens.sentences.Follows tokens c (List.map Sentence.resolved) DanishProse.sentences := by
  rw [sentences, sentences_eq]
  refine follows_peek h ?_
  split_ifs with hstop
  · exact .pure h rfl
  · refine follows_position ?_
    have hsome := fun hk => hstop (.inl hk)
    refine (sentence_follows c h hsome).seq fun s c₁ h₁ hleft => ?_
    have hlt : (c₁.left tokens).length < (c.left tokens).length := by
      rw [hleft]
      exact length_oneSentence_lt hsome
    refine follows_record h₁ hlt fun c₂ h₂ heq => ?_
    refine (sentences_follows c₂ h₂).bind fun ss last hlast _ => ?_
    exact .pure hlast rfl
termination_by 4 * (c.left tokens).length + 1
decreasing_by all_goals omega

theorem block_follows (c : Cursor) (h : c.Settled tokens) :
    tokens.block.Follows tokens c id DanishProse.block := by
  rw [block, block_eq]
  refine (consumeText_follows "goddag" h).bind fun _ c₁ h₁ hle₁ => ?_
  refine (consume_follows .dot h₁).bind fun _ c₂ h₂ hle₂ => ?_
  refine (sentences_follows c₂ h₂).bind fun body c₃ h₃ _ => ?_
  refine (consumeText_follows "farvel" h₃).bind fun _ c₄ h₄ _ => ?_
  refine (consume_follows .dot h₄).bind fun _ last hlast _ => ?_
  exact .pure hlast rfl
termination_by 4 * (c.left tokens).length + 2
decreasing_by omega

end

/-! ## Definitions -/

theorem parameter_follows (h : c.Settled tokens) :
    tokens.parameter.Follows tokens c id DanishProse.parameter := by
  rw [parameter, DanishProse.parameter]
  refine (consume_follows .word h).bind fun name c₁ h₁ _ => ?_
  refine (consumeText_follows "som" h₁).bind fun _ c₂ h₂ _ => ?_
  refine (consume_follows .word h₂).bind fun typeName c₃ h₃ _ => ?_
  refine (consume_follows .parenClose h₃).bind fun _ last hlast _ => ?_
  exact .pure hlast rfl

theorem patternParts_follows (c : Cursor) (h : c.Settled tokens) :
    tokens.patternParts.Follows tokens c id DanishProse.patternParts := by
  rw [patternParts, patternParts_eq]
  refine follows_peek h ?_
  split_ifs with hstop hword hopen
  · exact .pure h rfl
  · refine follows_advance h (fun hk => hstop (.inl hk)) fun t mid hmid hlt => ?_
    refine (patternParts_follows mid hmid).bind fun ps last hlast _ => ?_
    exact .pure hlast rfl
  · refine follows_advance h (fun hk => hstop (.inl hk)) fun t mid hmid hlt => ?_
    refine (parameter_follows hmid).bind fun p mid' hmid' hle => ?_
    refine (patternParts_follows mid' hmid').bind fun ps last hlast _ => ?_
    exact .pure hlast rfl
  · exact .pure h rfl
termination_by (c.left tokens).length
decreasing_by all_goals omega

theorem definition_follows (h : c.Settled tokens) :
    tokens.definition.Follows tokens c id DanishProse.definition := by
  rw [definition, DanishProse.definition, nextLocation_bind]
  refine follows_peek h ?_
  refine (patternParts_follows c h).bind fun parts c₁ h₁ _ => ?_
  refine (consumeText_follows "tilbagegiver" h₁).bind fun _ c₂ h₂ _ => ?_
  refine (consume_follows .word h₂).bind fun returnName c₃ h₃ _ => ?_
  refine (consume_follows .dot h₃).bind fun _ c₄ h₄ _ => ?_
  refine (block_follows c₄ h₄).bind fun body last hlast _ => ?_
  exact .pure hlast rfl

theorem turn_follows (h : c.Settled tokens) : tokens.turn.Follows tokens c id oneTurn := by
  rw [turn, oneTurn]
  refine (consumeText_follows "offentlig" h).bind fun _ c₁ h₁ _ => ?_
  refine (takeText_follows (by decide) h₁).bind fun found c₂ h₂ _ => ?_
  cases found with
  | true =>
    refine (definition_follows h₂).bind fun d last hlast _ => ?_
    exact .pure hlast rfl
  | false => exact .pure h₂ rfl

theorem definitions_of_reports (h : c.reports ≠ []) : tokens.definitions c = some ([], c) := by
  rw [definitions, Walk.bind_eq (show tokens.peek c = some (_, c) from rfl),
    Walk.bind_eq (show Walk.clean c = some (_, c) from rfl), if_neg]
  · rfl
  · simp [h]

theorem definitions_follows (c : Cursor) (h : c.Settled tokens) (hclean : c.reports = []) :
    tokens.definitions.Follows tokens c id readDefinitions := by
  have hnext := h.nextToken_left
  rw [definitions, Walk.Follows, Walk.bind_eq (show tokens.peek c = some (_, c) from rfl),
    Walk.bind_eq (show Walk.clean c = some (_, c) from rfl), ← hnext]
  cases hts : c.left tokens with
  | nil =>
    rw [if_neg (by simp [nextToken]), readDefinitions]
    exact ⟨[], c, rfl, rfl, h, hts, (List.append_nil _).symm⟩
  | cons t us =>
    rw [show nextToken (lastLocation tokens) (t :: us) = t from rfl]
    by_cases hk : t.kind = .endOfInput
    · rw [if_neg (by simp [hk]), readDefinitions, if_pos hk]
      exact ⟨[], c, rfl, rfl, h, hts, (List.append_nil _).symm⟩
    rw [if_pos (by simp [hk, hclean]), Walk.bind_eq (show Walk.position c = some (_, c) from rfl)]
    obtain ⟨ds, mid, hrun, hds, hmid⟩ := turn_follows h
    rw [hts] at hds hmid
    have hlt : (mid.left tokens).length < (c.left tokens).length := by
      rw [hmid.left, hts]
      exact length_oneTurn_lt hk
    have hlogged : (mid.logged .turn c.position).Settled tokens := hmid.settled.logged .turn hlt
    rw [Walk.bind_eq hrun, Walk.bind_eq (show Walk.record .turn c.position mid = some ((), _) from rfl)]
    have hreports := hmid.reports
    rw [hclean, List.nil_append] at hreports
    by_cases hturn : (oneTurn (lastLocation tokens) (t :: us)).reports = []
    · rw [hturn] at hreports
      obtain ⟨more, last, hrun', hmore, hlast⟩ := definitions_follows _ hlogged hreports
      rw [show (mid.logged .turn c.position).left tokens = _ from hmid.left] at hmore hlast
      rw [readDefinitions_turn hk hturn]
      refine ⟨ds ++ more, last, Walk.bind_eq hrun', congrArg₂ _ hds hmore, hlast.settled, hlast.left, ?_⟩
      rw [hlast.reports]
      exact congrArg (· ++ _) (hreports.trans hclean.symm)
    · have hne : (mid.logged .turn c.position).reports ≠ [] := fun he => hturn (hreports.symm.trans he)
      rw [readDefinitions_last hk hturn, Walk.bind_eq (definitions_of_reports hne)]
      refine ⟨_, _, rfl, ?_, hlogged, hmid.left, ?_⟩
      · rw [List.append_nil]
        exact hds
      · exact hmid.reports
termination_by (c.left tokens).length
decreasing_by exact hlt

end Tokens

/-! ## The end of the walk -/

/-- At the end of input, all tokens before it have been passed. -/
theorem Tokens.length_takeWhile_le {p : Nat} (h : (tokens.tokenAt p).kind = .endOfInput) :
    (tokens.takeWhile (·.kind ≠ .endOfInput)).length ≤ p := by
  by_contra hlt
  have hlt : p < (tokens.takeWhile (·.kind ≠ .endOfInput)).length := Nat.lt_of_not_le hlt
  have hp := Nat.lt_of_lt_of_le hlt (List.takeWhile_prefix _).length_le
  have hmem := List.mem_takeWhile_imp (List.getElem_mem hlt)
  rw [(List.takeWhile_prefix _).getElem hlt] at hmem
  rw [Tokens.tokenAt, List.getD_eq_getElem _ _ hp] at h
  simp [h] at hmem

/-- **Reading comes to an end, and nothing is left unread.**  From the first of any
    tokens at all, and with any reports from before, the walk over a document ends,
    with the definitions and the reports that are read there.  On the way the
    position never goes back; every turn of the loop over definitions and every
    sentence ends with less to read than it began with, and so does the way from a
    clause list to a list in brackets inside it.  If nothing was reported, then all
    tokens before the end of input are behind the last position. -/
theorem document_walk_ends (tokens : Tokens) (found : List Report) :
    ∃ last, tokens.document (Cursor.start found) =
        some ((Document.ofTokens found.isEmpty tokens).1, last) ∧
      last.reports = found ++ (Document.ofTokens found.isEmpty tokens).2 ∧
      last.path.Pairwise (· ≤ ·) ∧ last.position ≤ tokens.length ∧
      (∀ e ∈ last.log, e.Progresses tokens) ∧
      (last.reports = [] → (tokens.takeWhile (·.kind ≠ .endOfInput)).length ≤ last.position) := by
  obtain ⟨mid, hskip, hmid⟩ := Tokens.skipComments_leads _ (Cursor.start_sound tokens found)
  have hreports : mid.reports = found := by
    rw [hmid.reports, List.append_nil]
    rfl
  rw [Tokens.document, Walk.bind_eq hskip]
  cases hfound : found with
  | nil =>
    rw [hfound] at hreports
    obtain ⟨ds, last, hrun, hds, hlast⟩ := Tokens.definitions_follows mid hmid.settled hreports
    rw [hmid.left] at hds hlast
    refine ⟨last, ?_, ?_, hlast.settled.path, hlast.settled.within, hlast.settled.progress, ?_⟩
    · rw [Walk.bind_eq hrun]
      exact congrArg (fun ds => some (Document.mk ds, last)) hds
    · rw [hlast.reports, hreports]
      rfl
    · intro hnone
      refine Tokens.length_takeWhile_le ?_
      rw [← hlast.settled.nextToken_left, hlast.left]
      have hreported := hlast.reports
      rw [hnone] at hreported
      exact readDefinitions_stops _ _ (List.append_eq_nil_iff.1 hreported.symm).2
  | cons r rs =>
    have hne : mid.reports ≠ [] := by
      rw [hreports, hfound]
      exact List.cons_ne_nil _ _
    refine ⟨mid, ?_, ?_, hmid.settled.path, hmid.settled.within, hmid.settled.progress, (absurd · hne)⟩
    · rw [Walk.bind_eq (Tokens.definitions_of_reports hne)]
      rfl
    · rw [hreports, hfound]
      exact (List.append_nil _).symm

end DanishProse

/-
  Tokens with spaces between them are cut into the same tokens again.

  * What a token is does not depend on what stands around it: the text of a token is
    cut off as this token in front of whatever does not belong to it
    (`detaches_of_role`);
  * `respaced`: so the texts of all tokens of a source, joined by spaces, have the same
    tokens, and the text of each is this token alone.
-/
import DanishProse.Proofs.Appending
import DanishProse.Proofs.Rereading

namespace DanishProse

/-! ## Numbers -/

/-- A number goes on as far as before when all behind it is cut away. -/
theorem numberReach_take (cs : List Char) {rest : List Char} (hb : Boundary rest) :
    numberReach (cs.take (numberReach cs) ++ rest) = numberReach cs := by
  have hdigit {c : Char} (hc : isDigit c = true) (ds : List Char) :
      numberReach (c :: ds) = 1 + numberReach ds :=
    @numberReach_append [c] ds (by simpa using hc)
  fun_induction numberReach cs with
  | case1 => exact hb.numberReach
  | case2 c hc =>
    rw [List.take_succ_cons, List.take_nil, List.cons_append, List.nil_append, hdigit hc, hb.numberReach]
  | case3 c hc => exact hb.numberReach
  | case4 c d cs hc ih =>
    rw [List.take_succ_cons, List.cons_append, hdigit hc, ih, Nat.add_comm]
  | case5 c d cs hc hcomma ih =>
    obtain ⟨r, hr⟩ : ∃ r, numberReach (d :: cs) = r + 1 :=
      ⟨numberReach cs, by rw [hdigit (Bool.and_eq_true_iff.1 hcomma).2, Nat.add_comm]⟩
    rw [hr, List.take_succ_cons, List.cons_append] at ih
    rw [hr, List.take_succ_cons, List.take_succ_cons, List.cons_append, List.cons_append, numberReach,
      if_neg hc, if_pos hcomma, ih]
  | case6 c d cs hc hcomma => exact hb.numberReach

/-! ## Tokens on their own -/

/-- What stands around a token makes no difference to it. -/
theorem detaches_of_role {c : Char} {cs : List Char} {kind : TokenKind}
    (h : role c (cs.take (reach c cs)) = .token kind) (hne : kind ≠ .comment) :
    Detaches (String.ofList (c :: cs.take (reach c cs))) [⟨kind, String.ofList (c :: cs.take (reach c cs))⟩] := by
  intro rest gs hb hrest
  rcases role_cases h with ⟨hblank, hword, hk⟩ | hk | ⟨hdigit, v, hv, rfl⟩
  · obtain ⟨hspelled, rfl⟩ := spelled_of_word hblank hword hne hk
    exact Lexes.word hspelled hne hb hrest
  · have hreach : reach c cs = 0 := by
      rcases signKind?_cases hk with ⟨rfl, -⟩ | ⟨rfl, -⟩ | ⟨rfl, -⟩ | ⟨rfl, -⟩ <;> rfl
    rw [hreach, List.take_zero, String.toList_ofList]
    exact Lexes.sign hk hrest
  · obtain ⟨hblank, hword, -⟩ := not_word_of_isDigit hdigit
    have hreach : reach c cs = numberReach cs := by simp [reach, hblank, hword, hdigit]
    rw [hreach] at hv ⊢
    refine Lexes.number ⟨c, _, String.toList_ofList, hdigit⟩ ?_ (by rwa [String.toList_ofList]) hrest
    have hfirst := @numberReach_append [c] (cs.take (numberReach cs) ++ rest) (by simpa using hdigit)
    rw [String.toList_ofList, List.cons_append, List.length_cons, List.length_take_of_le (numberReach_le cs)]
    rw [numberReach_take cs hb] at hfirst
    rw [Nat.add_comm]
    exact hfirst

/-- **Every token of a source is cut off as itself.** -/
theorem tokens_detach (source : String) :
    ∀ t ∈ (Token.ofSource source).beforeEnd, Detaches t.text [t.face] :=
  forall_beforeEnd (P := fun t => Detaches t.text [t.face]) (fun _ _ _ _ => detaches_of_role) source

/-! ## Sources -/

/-- The tokens of a text look like these, with the end of input behind them, and nothing is
    reported. -/
structure Tokenizes (text : String) (fs : List Face) : Prop where
  clean : (Token.ofSource text).reports = []
  faces : (Token.ofSource text).tokens.map Token.face = fs ++ [⟨.endOfInput, ""⟩]

/-- A text that is cut into tokens wherever it stands is so on its own. -/
theorem Detaches.tokenizes {text : String} {fs : List Face} (h : Detaches text fs) : Tokenizes text fs := by
  have hlexes := h [] [] trivial .nil
  rw [List.append_nil, List.append_nil] at hlexes
  obtain ⟨hreports, hfaces⟩ := hlexes.ofSource
  obtain ⟨last, htokens, -⟩ := tokens_ofSource text
  refine ⟨hreports, ?_⟩
  rw [htokens, List.map_append, hfaces]
  rfl

/-- **Tokens with spaces between them are the same tokens again**, and nothing is reported.  In
    particular the text of each token is this token alone. -/
theorem respaced (source : String) :
    Tokenizes (Text.joined " " ((Token.ofSource source).beforeEnd.map Token.text))
        ((Token.ofSource source).beforeEnd.map Token.face) ∧
      ∀ t ∈ (Token.ofSource source).beforeEnd, Tokenizes t.text [t.face] := by
  have hts := tokens_detach source
  generalize (Token.ofSource source).beforeEnd = ts at hts
  have hall : Detaches (Text.joined " " (ts.map Token.text)) (ts.flatMap fun t => [t.face]) :=
    Detaches.joined hts
  rw [← List.map_eq_flatMap] at hall
  exact ⟨hall.tokenizes, fun t ht => (hts t ht).tokenizes⟩

end DanishProse

/-
  What the tokens of a text are like.

  * Every piece of a text is cut off its front by `reach` and `role`
    (`forall_scan`);
  * a token that is a word consists of the characters of a word, and would be a
    word on its own (`IsWord`);
  * before the end of input there is no other one, and no comment
    (`forall_ofSource`).
-/
import Mathlib.Data.List.TakeWhile
import DanishProse.Proofs.Reading

namespace DanishProse

/-! ## Pieces -/

/-- A property of what is cut off the front of a text is one of every piece. -/
theorem forall_scan {P : Piece → Prop}
    (h : ∀ (l : Location) (c : Char) (cs : List Char),
      P ⟨role c (cs.take (reach c cs)), c :: cs.take (reach c cs), l⟩)
    (l : Location) (cs : List Char) : ∀ p ∈ scan l cs, P p := by
  fun_induction scan l cs with
  | case1 => simp
  | case2 l c cs n text ih => exact List.forall_mem_cons.2 ⟨h l c cs, ih⟩

/-! ## Words -/

/-- The characters of a word. -/
def IsSpelled (text : String) : Prop :=
  ∃ c cs, text.toList = c :: cs ∧ isWordStart c = true ∧ ∀ d ∈ cs, isWordRest d = true

/-- A word on its own: the characters of a word, and neither a number nor a truth
    value nor the beginning of a comment. -/
structure IsWord (text : String) : Prop where
  spelled : IsSpelled text
  kind : wordKind text = .word

/-- What begins like a word goes on at least over the characters of words, and no
    further unless it is a comment. -/
theorem reach_of_isWordStart {c : Char} {cs : List Char} (hb : Text.isAsciiBlank c = false)
    (hw : isWordStart c = true) :
    (cs.takeWhile isWordRest).length ≤ reach c cs ∧
      (Text.sameWord (String.ofList (c :: cs.takeWhile isWordRest)) commentWord = false →
        reach c cs = (cs.takeWhile isWordRest).length) := by
  unfold reach
  rw [if_neg (Bool.eq_false_iff.1 hb), if_pos hw]
  dsimp only
  constructor
  · split
    · exact Nat.le_add_right _ _
    · exact Nat.le_refl _
  · intro h
    rw [if_neg (Bool.eq_false_iff.1 h)]

theorem takeWhile_take_reach {c : Char} {cs : List Char} (hb : Text.isAsciiBlank c = false)
    (hw : isWordStart c = true) :
    (cs.take (reach c cs)).takeWhile isWordRest = cs.takeWhile isWordRest := by
  rw [← List.take_takeWhile, List.take_of_length_le (reach_of_isWordStart hb hw).1]

theorem take_length_takeWhile (p : Char → Bool) (cs : List Char) :
    cs.take (cs.takeWhile p).length = cs.takeWhile p :=
  (List.prefix_iff_eq_take.1 (List.takeWhile_prefix p)).symm

theorem wordKind_ne_comment {text : String} (h : wordKind text ≠ .comment) :
    Text.sameWord text commentWord = false := by
  rw [Bool.eq_false_iff]
  intro hc
  rw [wordKind, if_pos hc] at h
  exact h rfl

/-! ## Roles -/

/-- The signs that are tokens. -/
def signKind? : Char → Option TokenKind
  | '.' => some .dot
  | ',' => some .comma
  | '(' => some .parenOpen
  | ')' => some .parenClose
  | _ => none

/-- A token is a word or what stands for one, a sign or a number. -/
theorem role_cases {c : Char} {cs : List Char} {kind : TokenKind} (h : role c cs = .token kind) :
    (Text.isAsciiBlank c = false ∧ isWordStart c = true ∧
        kind = wordKind (String.ofList (c :: cs.takeWhile isWordRest))) ∨
      signKind? c = some kind ∨
      (isDigit c = true ∧ ∃ v, numberLiteral? (c :: cs) = some v ∧ kind = .literal v) := by
  unfold role at h
  split_ifs at h with hblank hword hsign hdigit
  · injection h with h
    exact .inl ⟨Bool.eq_false_iff.2 hblank, hword, h.symm⟩
  · split at h <;> cases h <;> exact .inr (.inl rfl)
  · split at h
    · next v hv =>
      injection h with h
      exact .inr (.inr ⟨hdigit, v, hv, h.symm⟩)
    · cases h

theorem wordKind_cases (text : String) :
    wordKind text = .comment ∨ (∃ v, wordKind text = .literal (.boolean v)) ∨
      (∃ v, wordKind text = .literal (.integer v)) ∨ wordKind text = .word := by
  unfold wordKind
  split_ifs
  · exact .inl rfl
  · exact .inr (.inl ⟨_, rfl⟩)
  · exact .inr (.inl ⟨_, rfl⟩)
  · split
    · exact .inr (.inr (.inl ⟨_, rfl⟩))
    · exact .inr (.inr (.inr rfl))

theorem signKind?_cases {c : Char} {kind : TokenKind} (h : signKind? c = some kind) :
    (c = '.' ∧ kind = .dot) ∨ (c = ',' ∧ kind = .comma) ∨ (c = '(' ∧ kind = .parenOpen) ∨
      (c = ')' ∧ kind = .parenClose) := by
  unfold signKind? at h
  split at h <;> simp_all

/-- A word that is no comment ends with its last character, and is what it would be on its own. -/
theorem spelled_of_word {c : Char} {cs : List Char} {kind : TokenKind} (hblank : Text.isAsciiBlank c = false)
    (hword : isWordStart c = true) (hne : kind ≠ .comment)
    (hk : kind = wordKind (String.ofList (c :: (cs.take (reach c cs)).takeWhile isWordRest))) :
    IsSpelled (String.ofList (c :: cs.take (reach c cs))) ∧
      kind = wordKind (String.ofList (c :: cs.take (reach c cs))) := by
  rw [takeWhile_take_reach hblank hword] at hk
  have hreach := (reach_of_isWordStart hblank hword).2 (wordKind_ne_comment (hk ▸ hne))
  rw [hreach, take_length_takeWhile]
  exact ⟨⟨c, _, String.toList_ofList, hword, fun d hd => List.mem_takeWhile_imp hd⟩, hk⟩

theorem isWord_of_role {c : Char} {cs : List Char} (h : role c (cs.take (reach c cs)) = .token .word) :
    IsWord (String.ofList (c :: cs.take (reach c cs))) := by
  rcases role_cases h with ⟨hblank, hword, hk⟩ | hk | ⟨-, v, -, hk⟩
  · have hne : TokenKind.word ≠ .comment := nofun
    obtain ⟨hspelled, hk⟩ := spelled_of_word hblank hword hne hk
    exact ⟨hspelled, hk.symm⟩
  · rcases signKind?_cases hk with ⟨-, hk⟩ | ⟨-, hk⟩ | ⟨-, hk⟩ | ⟨-, hk⟩ <;> cases hk
  · cases hk

theorem role_ne_endOfInput {c : Char} {cs : List Char} : role c cs ≠ .token .endOfInput := by
  intro h
  rcases role_cases h with ⟨-, -, hk⟩ | hk | ⟨-, v, -, hk⟩
  · rcases wordKind_cases (String.ofList (c :: cs.takeWhile isWordRest)) with he | ⟨v, he⟩ | ⟨v, he⟩ | he <;>
      rw [he] at hk <;> cases hk
  · rcases signKind?_cases hk with ⟨-, hk⟩ | ⟨-, hk⟩ | ⟨-, hk⟩ | ⟨-, hk⟩ <;> cases hk
  · cases hk

theorem text_of_role_parenOpen {c : Char} {cs : List Char}
    (h : role c (cs.take (reach c cs)) = .token .parenOpen) :
    String.ofList (c :: cs.take (reach c cs)) = "(" := by
  rcases role_cases h with ⟨-, -, hk⟩ | hk | ⟨-, v, -, hk⟩
  · rcases wordKind_cases (String.ofList (c :: (cs.take (reach c cs)).takeWhile isWordRest)) with
      he | ⟨v, he⟩ | ⟨v, he⟩ | he <;> rw [he] at hk <;> cases hk
  · rcases signKind?_cases hk with ⟨-, hk⟩ | ⟨-, hk⟩ | ⟨rfl, -⟩ | ⟨-, hk⟩
    · cases hk
    · cases hk
    · rfl
    · cases hk
  · cases hk

/-! ## Words for numbers -/

theorem decode_congr {a b : String} (h : Text.sameWord a b = true) :
    Numeral.decode a = Numeral.decode b := by
  rw [Numeral.decode, Numeral.decode, Text.sameWord_iff.1 h]

theorem decode_of_wordKind {text : String} (h : wordKind text = .word) : Numeral.decode text = none := by
  unfold wordKind at h
  split_ifs at h
  split at h
  · cases h
  · next hn => exact hn

/-- A word is not a word for a number. -/
theorem IsWord.ne_numeral {text : String} (h : IsWord text) {numeral : String}
    (hn : (Numeral.decode numeral).isSome = true) : Text.sameWord text numeral = false := by
  rw [Bool.eq_false_iff]
  intro hs
  rw [← decode_congr hs, decode_of_wordKind h.kind] at hn
  cases hn

/-! ## Tokens -/

/-- A property of the tokens that are cut off the front of a text is one of all its
    tokens before the end of input. -/
theorem forall_ofSource {P : Token → Prop}
    (h : ∀ (l : Location) (c : Char) (cs : List Char) (kind : TokenKind),
      role c (cs.take (reach c cs)) = .token kind → kind ≠ .comment →
        P ⟨kind, String.ofList (c :: cs.take (reach c cs)), l⟩) (source : String) :
    ∃ ts last, (Token.ofSource source).tokens = ts ++ [⟨.endOfInput, "", last⟩] ∧ ∀ t ∈ ts, P t := by
  refine ⟨((scan .start source.toList).filterMap Piece.token?).filter (·.kind ≠ .comment),
    Location.start.after source.toList, ?_, ?_⟩
  · simp [Token.ofSource, Token.allOfSource]
  · intro t ht
    obtain ⟨ht, hk⟩ := List.mem_filter.1 ht
    obtain ⟨p, hp, hpt⟩ := List.mem_filterMap.1 ht
    refine forall_scan (P := fun p => ∀ t, p.token? = some t → t.kind ≠ .comment → P t) ?_ _ _ p hp t hpt
      (by simpa using hk)
    intro l c cs t ht hk
    unfold Piece.token? at ht
    split at ht
    · next kind hrole =>
      cases ht
      exact h l c cs kind hrole hk
    · cases ht

end DanishProse

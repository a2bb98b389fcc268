/-
  The pieces of a text lie in it without gaps, and nothing is lost between them.

  * `Location.behind` says what a place is in terms of the text before it: the bytes, the
    newlines, and the bytes since the last of these.  The places that `scan` counts out
    are of this kind (`Location.after_start`);
  * `StandsIn text l source`: the bytes of `source` from `l` on are those of `text`, which
    begins and ends between characters;
  * `Problem.Rejects` says what may be rejected for which reason;
  * `Tiling`: pieces that stand in a source, one behind the other, so that every byte of it
    lies in one of them;
  * `AmountTo`: which tokens and which reports pieces amount to.  `source_tiled` says that
    those of a source come from a tiling of it in this way.
-/
import Mathlib.Data.List.DropRight
import Mathlib.Tactic.Common
import DanishProse.Proofs.Lexing

namespace DanishProse

/-! ## Places -/

/-- The place behind a text. -/
def Location.behind (before : String) : Location where
  pos := before.utf8ByteSize
  row := before.toList.count '\n'
  col := (String.ofList (before.toList.rtakeWhile (· ≠ '\n'))).utf8ByteSize

theorem utf8ByteSize_concat (cs : List Char) (c : Char) :
    (String.ofList (cs ++ [c])).utf8ByteSize = (String.ofList cs).utf8ByteSize + c.utf8Size := by
  rw [String.ofList_append, String.utf8ByteSize_append, ← String.singleton_eq_ofList,
    String.utf8ByteSize_singleton]

theorem Location.after_concat (l : Location) (cs : List Char) (c : Char) :
    l.after (cs ++ [c]) = (l.after cs).next c := by
  rw [after_append]
  rfl

theorem Location.pos_after (l : Location) (cs : List Char) :
    (l.after cs).pos = l.pos + (String.ofList cs).utf8ByteSize := by
  induction cs using List.reverseRecOn with
  | nil => rfl
  | append_singleton cs c ih =>
    have hpos : ((l.after cs).next c).pos = (l.after cs).pos + c.utf8Size := by
      unfold next
      split_ifs with hc
      · rw [hc]
        rfl
      · rfl
    rw [after_concat, hpos, ih, utf8ByteSize_concat, Nat.add_assoc]

/-- **Places are counted as they should be**: by the bytes and the lines of the text before. -/
theorem Location.after_start (cs : List Char) : start.after cs = behind (String.ofList cs) := by
  induction cs using List.reverseRecOn with
  | nil => rfl
  | append_singleton cs c ih =>
    rw [after_concat, ih]
    unfold next behind
    rw [utf8ByteSize_concat, String.toList_ofList, String.toList_ofList, List.count_append,
      List.rtakeWhile_concat]
    split_ifs with hc hne hne
    · exact absurd hc (of_decide_eq_true hne)
    · subst hc
      rfl
    · rw [utf8ByteSize_concat, List.count_singleton, if_neg (by simpa using hc), Nat.add_zero]
    · exact absurd (decide_eq_true hc) hne

/-! ## Texts in a source -/

/-- A text stands in a source at a place. -/
structure StandsIn (text : String) (l : Location) (source : String) : Prop where
  /-- Its bytes are those of the source. -/
  bytes : source.toUTF8.extract l.pos (l.pos + text.utf8ByteSize) = text.toUTF8
  /-- It begins between characters. -/
  first : String.Pos.Raw.IsValid source ⟨l.pos⟩
  /-- It ends between characters. -/
  last : String.Pos.Raw.IsValid source ⟨l.pos + text.utf8ByteSize⟩
  /-- Its place is that of its first byte. -/
  place : ∃ before behind, source = before ++ behind ∧ l = .behind before

theorem StandsIn.of_append (before text behind : String) :
    StandsIn text (.behind before) (before ++ text ++ behind) where
  bytes := by
    have hown := ByteArray.extract_append_eq_right (a := before.toByteArray) (b := text.toByteArray)
      (i := before.utf8ByteSize) (j := before.utf8ByteSize + text.utf8ByteSize) rfl rfl
    show (before ++ text ++ behind).toByteArray.extract before.utf8ByteSize
      (before.utf8ByteSize + text.utf8ByteSize) = text.toByteArray
    rw [String.toByteArray_append, ByteArray.extract_append, String.toByteArray_append, hown]
    simp [ByteArray.size_append]
  first := String.Pos.Raw.isValid_iff_exists_append.2 ⟨before, text ++ behind, String.append_assoc, rfl⟩
  last := by
    refine String.Pos.Raw.isValid_iff_exists_append.2 ⟨before ++ text, behind, rfl, ?_⟩
    rw [String.Pos.Raw.ext_iff]
    exact String.utf8ByteSize_append.symm
  place := ⟨before, text ++ behind, String.append_assoc, rfl⟩

/-! ## Pieces in a source -/

/-- The text of a piece. -/
def Piece.string (p : Piece) : String :=
  String.ofList p.text

/-- Where a piece ends. -/
def Piece.limit (p : Piece) : Nat :=
  p.location.pos + p.string.utf8ByteSize

/-- Every piece is a part of the text, at the place behind what comes before it. -/
theorem mem_scan {l : Location} {cs : List Char} : ∀ p ∈ scan l cs,
    p.text ≠ [] ∧ ∃ before behind, cs = before ++ p.text ++ behind ∧ p.location = l.after before := by
  fun_induction scan l cs with
  | case1 => simp
  | case2 l c cs n text ih =>
    refine List.forall_mem_cons.2 ⟨⟨List.cons_ne_nil _ _, [], cs.drop n, ?_, rfl⟩, fun p hp => ?_⟩
    · simp [text]
    · obtain ⟨hne, before, behind, hsplit, hplace⟩ := ih p hp
      refine ⟨hne, text ++ before, behind, ?_, by rw [hplace, Location.after_append]⟩
      have hwhole : c :: cs = text ++ cs.drop n := by simp [text]
      rw [hwhole, hsplit]
      simp only [List.append_assoc]

theorem le_pos_of_mem_scan {l : Location} {cs : List Char} {p : Piece} (hp : p ∈ scan l cs) :
    l.pos ≤ p.location.pos := by
  obtain ⟨-, before, -, -, hplace⟩ := mem_scan p hp
  rw [hplace, Location.pos_after]
  exact Nat.le_add_right _ _

/-- **Each piece ends before the next ones begin.** -/
theorem pairwise_scan (l : Location) (cs : List Char) :
    (scan l cs).Pairwise fun p q => p.limit ≤ q.location.pos := by
  fun_induction scan l cs with
  | case1 => exact .nil
  | case2 l c cs n text ih =>
    refine .cons (fun q hq => ?_) ih
    have hle := le_pos_of_mem_scan hq
    rwa [Location.pos_after] at hle

/-- **No byte lies between pieces.** -/
theorem exists_mem_scan {l : Location} {cs : List Char} {i : Nat} (hl : l.pos ≤ i)
    (hi : i < l.pos + (String.ofList cs).utf8ByteSize) :
    ∃ p ∈ scan l cs, p.location.pos ≤ i ∧ i < p.limit := by
  fun_induction scan l cs with
  | case1 =>
    rw [String.ofList_nil, String.utf8ByteSize_empty] at hi
    omega
  | case2 l c cs n text ih =>
    have hwhole : c :: cs = text ++ cs.drop n := by simp [text]
    rw [hwhole, String.ofList_append, String.utf8ByteSize_append, ← Nat.add_assoc] at hi
    by_cases hfirst : i < l.pos + (String.ofList text).utf8ByteSize
    · exact ⟨_, List.mem_cons_self, hl, hfirst⟩
    · rw [← Location.pos_after] at hfirst hi
      obtain ⟨p, hp, hcovers⟩ := ih (Nat.not_lt.1 hfirst) hi
      exact ⟨p, List.mem_cons_of_mem _ hp, hcovers⟩

/-! ## Characters by their numbers -/

theorem char_le_iff {c d : Char} : c ≤ d ↔ c.toNat ≤ d.toNat :=
  UInt32.le_iff_toNat_le

theorem char_eq_iff {c d : Char} : c = d ↔ c.toNat = d.toNat :=
  Char.toNat_inj.symm

theorem isDigit_iff (c : Char) : isDigit c = true ↔ 48 ≤ c.toNat ∧ c.toNat ≤ 57 := by
  simp only [isDigit, Bool.and_eq_true, decide_eq_true_eq, char_le_iff]
  rfl

theorem isSign_iff (c : Char) : isSign c = true ↔ 33 ≤ c.toNat ∧ c.toNat ≤ 47 ∨
    58 ≤ c.toNat ∧ c.toNat ≤ 64 ∨ 91 ≤ c.toNat ∧ c.toNat ≤ 96 ∨ 123 ≤ c.toNat ∧ c.toNat ≤ 126 := by
  simp only [isSign, Bool.or_eq_true, Bool.and_eq_true, decide_eq_true_eq, char_le_iff, or_assoc]
  rfl

theorem isWordStart_iff (c : Char) : isWordStart c = true ↔ 97 ≤ c.toNat ∧ c.toNat ≤ 122 ∨
    65 ≤ c.toNat ∧ c.toNat ≤ 90 ∨ c.toNat = 95 ∨ 128 ≤ c.toNat := by
  simp only [isWordStart, isAsciiLetter, Bool.or_eq_true, Bool.and_eq_true, decide_eq_true_eq,
    beq_iff_eq, char_le_iff, char_eq_iff, or_assoc]
  rfl

theorem isAsciiBlank_iff (c : Char) : Text.isAsciiBlank c = true ↔
    c.toNat = 32 ∨ c.toNat = 9 ∨ c.toNat = 10 ∨ c.toNat = 12 ∨ c.toNat = 13 := by
  simp only [Text.isAsciiBlank, Bool.or_eq_true, beq_iff_eq, char_eq_iff, or_assoc]
  rfl

/-! ## What pieces are like -/

/-- What may be rejected for a reason: a sign that is no token, a control character, or a number
    with more than one comma. -/
inductive Problem.Rejects : Problem → List Char → Prop
  | sign {c : Char} : isSign c = true → signKind? c = none → Rejects .invalidOperator [c]
  | control {c : Char} : c.toNat < 0x20 ∨ c.toNat = 0x7f → Text.isAsciiBlank c = false →
      Rejects .unexpectedCharacter [c]
  | number {c : Char} {cs : List Char} : isDigit c = true → (∀ d ∈ cs, isDigit d = true ∨ d = ',') →
      2 ≤ (c :: cs).count ',' → Rejects .invalidFloat (c :: cs)

theorem take_numberReach (cs : List Char) :
    ∀ d ∈ cs.take (numberReach cs), isDigit d = true ∨ d = ',' := by
  fun_induction numberReach cs with
  | case1 => simp
  | case2 c hc => simp [hc]
  | case3 c hc => simp
  | case4 c d cs hc ih => exact List.forall_mem_cons.2 ⟨.inl hc, ih⟩
  | case5 c d cs hc hcomma ih =>
    have hc' : c = ',' := eq_of_beq (Bool.and_eq_true_iff.1 hcomma).1
    exact List.forall_mem_cons.2 ⟨.inr hc', ih⟩
  | case6 c d cs hc hcomma => simp

/-- A number that has no value has two commas. -/
theorem count_of_numberLiteral? {cs : List Char} (h : numberLiteral? cs = none) : 2 ≤ cs.count ',' := by
  unfold numberLiteral? at h
  have hsplit := List.takeWhile_append_dropWhile (p := (· ≠ ',')) (l := cs)
  split at h
  · cases h
  · next c fraction hdrop =>
    split_ifs at h with hcomma
    have hc : c = ',' := by
      have hhead := List.head?_dropWhile_not (· ≠ ',') cs
      rw [hdrop] at hhead
      simpa using hhead
    rw [← hsplit, hdrop, hc, List.count_append, List.count_cons_self]
    have hone : 0 < fraction.count ',' := List.count_pos_iff.2 (by simpa using hcomma)
    omega

theorem isDigit_of_isSign {c : Char} (h : isSign c = true) : isDigit c = false := by
  rw [isSign_iff] at h
  rw [Bool.eq_false_iff, ne_eq, isDigit_iff]
  omega

/-- What is neither a blank, nor begins a word or a number, nor is a sign, is a control character. -/
theorem isControl {c : Char} (hblank : ¬ Text.isAsciiBlank c = true) (hword : ¬ isWordStart c = true)
    (hsign : ¬ isSign c = true) (hdigit : ¬ isDigit c = true) : c.toNat < 0x20 ∨ c.toNat = 0x7f := by
  rw [isAsciiBlank_iff] at hblank
  rw [isWordStart_iff] at hword
  rw [isSign_iff] at hsign
  rw [isDigit_iff] at hdigit
  omega

section
variable {c : Char} {cs : List Char}

theorem reach_eq_zero (hblank : Text.isAsciiBlank c = false) (hword : isWordStart c = false)
    (hdigit : isDigit c = false) : reach c cs = 0 := by
  simp [reach, hblank, hword, hdigit]

/-- A piece that is blank is white space of ASCII. -/
theorem blank_of_role (h : role c (cs.take (reach c cs)) = .blank) :
    ∀ d ∈ c :: cs.take (reach c cs), Text.isAsciiBlank d = true := by
  have hblank : Text.isAsciiBlank c = true := by
    unfold role at h
    split_ifs at h with hblank
    · exact hblank
    · split at h <;> cases h
    · split at h <;> cases h
  refine List.forall_mem_cons.2 ⟨hblank, fun d hd => ?_⟩
  rw [reach, if_pos hblank, take_length_takeWhile] at hd
  exact List.mem_takeWhile_imp hd

/-- **What is rejected is rejected for a reason.** -/
theorem rejects_of_role {problem : Problem} (h : role c (cs.take (reach c cs)) = .rejected problem) :
    problem.Rejects (c :: cs.take (reach c cs)) := by
  unfold role at h
  split_ifs at h with hblank hword hsign hdigit
  · have hreach : reach c cs = 0 := reach_eq_zero (Bool.eq_false_iff.2 hblank) (Bool.eq_false_iff.2 hword)
      (isDigit_of_isSign hsign)
    rw [hreach, List.take_zero]
    split at h <;> cases h
    refine .sign hsign ?_
    unfold signKind?
    split <;> simp_all
  · have hreach : reach c cs = numberReach cs := by simp [reach, hblank, hword, hdigit]
    split at h
    · cases h
    · next hnone =>
      cases h
      refine .number hdigit ?_ (count_of_numberLiteral? hnone)
      rw [hreach]
      exact take_numberReach cs
  · cases h
    have hreach : reach c cs = 0 := reach_eq_zero (Bool.eq_false_iff.2 hblank) (Bool.eq_false_iff.2 hword)
      (Bool.eq_false_iff.2 hdigit)
    rw [hreach, List.take_zero]
    exact .control (isControl hblank hword hsign hdigit) (Bool.eq_false_iff.2 hblank)

end

/-! ## Tilings -/

/-- Pieces that stand in a source one behind the other, without gaps. -/
structure Tiling (source : String) (pieces : List Piece) : Prop where
  stands : ∀ p ∈ pieces, p.text ≠ [] ∧ StandsIn p.string p.location source
  ordered : pieces.Pairwise fun p q => p.limit ≤ q.location.pos
  /-- Every byte lies in just one of them. -/
  covers : ∀ i < source.utf8ByteSize,
    ∃! k : Nat, ∃ p, pieces[k]? = some p ∧ p.location.pos ≤ i ∧ i < p.limit
  /-- What is neither a token nor rejected is white space of ASCII. -/
  blank : ∀ p ∈ pieces, p.role = .blank → ∀ c ∈ p.text, Text.isAsciiBlank c = true
  /-- What is rejected is rejected for its reason. -/
  rejected : ∀ p ∈ pieces, ∀ problem, p.role = .rejected problem → problem.Rejects p.text

/-- A number lies in one of several spans at most, if they do not overlap. -/
theorem index_unique {pieces : List Piece} (h : pieces.Pairwise fun p q => p.limit ≤ q.location.pos)
    {i j k : Nat} (hj : ∃ p, pieces[j]? = some p ∧ p.location.pos ≤ i ∧ i < p.limit)
    (hk : ∃ p, pieces[k]? = some p ∧ p.location.pos ≤ i ∧ i < p.limit) : j = k := by
  obtain ⟨p, hp, hfirst, hlast⟩ := hj
  obtain ⟨q, hq, hfirst', hlast'⟩ := hk
  obtain ⟨hjlt, rfl⟩ := List.getElem?_eq_some_iff.1 hp
  obtain ⟨hklt, rfl⟩ := List.getElem?_eq_some_iff.1 hq
  rw [List.pairwise_iff_getElem] at h
  by_contra hne
  rcases Nat.lt_or_gt_of_ne hne with hlt | hlt
  · have hle := h j k hjlt hklt hlt
    omega
  · have hle := h k j hklt hjlt hlt
    omega

/-- **The pieces of a source tile it.** -/
theorem tiling_scan (source : String) : Tiling source (scan .start source.toList) where
  stands p hp := by
    obtain ⟨hne, before, behind, hsplit, hplace⟩ := mem_scan p hp
    refine ⟨hne, ?_⟩
    have hsource : source = String.ofList before ++ p.string ++ String.ofList behind := by
      rw [Piece.string, ← String.ofList_append, ← String.ofList_append, ← hsplit, String.ofList_toList]
    rw [hplace, Location.after_start, hsource]
    exact .of_append _ _ _
  ordered := pairwise_scan _ _
  covers i hi := by
    have hend : i < Location.start.pos + (String.ofList source.toList).utf8ByteSize := by
      rw [String.ofList_toList]
      exact Nat.lt_of_lt_of_le hi (Nat.le_add_left _ _)
    obtain ⟨p, hp, hcovers⟩ := exists_mem_scan (Nat.zero_le i) hend
    obtain ⟨k, hk⟩ := List.mem_iff_getElem?.1 hp
    exact ⟨k, ⟨p, hk, hcovers⟩, fun j hj => index_unique (pairwise_scan _ _) hj ⟨p, hk, hcovers⟩⟩
  blank := forall_scan (P := fun p => p.role = .blank → ∀ c ∈ p.text, Text.isAsciiBlank c = true)
    (fun _ _ _ h => blank_of_role h) _ _
  rejected := forall_scan (P := fun p => ∀ problem, p.role = .rejected problem → problem.Rejects p.text)
    (fun _ _ _ _ h => rejects_of_role h) _ _

/-! ## Tokens and reports of pieces -/

theorem Piece.token?_eq_some_iff {p : Piece} {t : Token} :
    p.token? = some t ↔ p.role = .token t.kind ∧ t.text = p.string ∧ t.location = p.location := by
  obtain ⟨kind, text, l⟩ := t
  unfold Piece.token?
  constructor
  · intro h
    split at h
    · next hrole =>
      cases h
      exact ⟨hrole, rfl, rfl⟩
    · cases h
  · rintro ⟨hrole, rfl, rfl⟩
    rw [hrole]
    rfl

theorem Piece.report?_eq_some_iff {p : Piece} {r : Report} :
    p.report? = some r ↔ p.role = .rejected r.problem ∧ r.location = p.location := by
  obtain ⟨problem, l⟩ := r
  unfold Piece.report?
  constructor
  · intro h
    split at h
    · next hrole =>
      cases h
      exact ⟨hrole, rfl⟩
    · cases h
  · rintro ⟨hrole, rfl⟩
    rw [hrole]

/-- The tokens and the reports that pieces amount to.  In the order of the pieces, each token has
    the text and the place of its piece, and what is rejected has one report where it begins.
    White space has nothing. -/
inductive AmountTo : List Piece → List Token → List Report → Prop
  | nil : AmountTo [] [] []
  | blank {p : Piece} {ps : List Piece} {ts : List Token} {rs : List Report} : p.role = .blank →
      AmountTo ps ts rs → AmountTo (p :: ps) ts rs
  | token {p : Piece} {ps : List Piece} {ts : List Token} {rs : List Report} {kind : TokenKind} :
      p.role = .token kind → AmountTo ps ts rs → AmountTo (p :: ps) (⟨kind, p.string, p.location⟩ :: ts) rs
  | rejected {p : Piece} {ps : List Piece} {ts : List Token} {rs : List Report} {problem : Problem} :
      p.role = .rejected problem → AmountTo ps ts rs → AmountTo (p :: ps) ts (⟨problem, p.location⟩ :: rs)

/-- **Pieces amount to the tokens and the reports that they are.** -/
theorem amountTo_filterMap (pieces : List Piece) :
    AmountTo pieces (pieces.filterMap Piece.token?) (pieces.filterMap Piece.report?) := by
  induction pieces with
  | nil => exact .nil
  | cons p pieces ih =>
    cases hrole : p.role with
    | blank =>
      have htoken : p.token? = none := by rw [Piece.token?, hrole]
      have hreport : p.report? = none := by rw [Piece.report?, hrole]
      rw [List.filterMap_cons_none htoken, List.filterMap_cons_none hreport]
      exact .blank hrole ih
    | token kind =>
      have htoken : p.token? = some ⟨kind, p.string, p.location⟩ :=
        Piece.token?_eq_some_iff.2 ⟨hrole, rfl, rfl⟩
      have hreport : p.report? = none := by rw [Piece.report?, hrole]
      rw [List.filterMap_cons_some htoken, List.filterMap_cons_none hreport]
      exact .token hrole ih
    | rejected problem =>
      have htoken : p.token? = none := by rw [Piece.token?, hrole]
      have hreport : p.report? = some ⟨problem, p.location⟩ := Piece.report?_eq_some_iff.2 ⟨hrole, rfl⟩
      rw [List.filterMap_cons_none htoken, List.filterMap_cons_some hreport]
      exact .rejected hrole ih

namespace AmountTo
variable {pieces : List Piece} {ts : List Token} {rs : List Report} (h : AmountTo pieces ts rs)
include h

theorem exists_of_token : ∀ t ∈ ts, ∃ p ∈ pieces,
    p.role = .token t.kind ∧ t.text = p.string ∧ t.location = p.location := by
  induction h with
  | nil => exact List.forall_mem_nil _
  | blank _ _ ih => exact fun t ht => (ih t ht).imp fun _ => .imp_left (List.mem_cons_of_mem _)
  | token hrole _ ih =>
    refine List.forall_mem_cons.2 ⟨⟨_, List.mem_cons_self, hrole, rfl, rfl⟩, fun t ht => ?_⟩
    exact (ih t ht).imp fun _ => .imp_left (List.mem_cons_of_mem _)
  | rejected _ _ ih => exact fun t ht => (ih t ht).imp fun _ => .imp_left (List.mem_cons_of_mem _)

theorem exists_of_report : ∀ r ∈ rs, ∃ p ∈ pieces,
    p.role = .rejected r.problem ∧ r.location = p.location := by
  induction h with
  | nil => exact List.forall_mem_nil _
  | blank _ _ ih => exact fun r hr => (ih r hr).imp fun _ => .imp_left (List.mem_cons_of_mem _)
  | token _ _ ih => exact fun r hr => (ih r hr).imp fun _ => .imp_left (List.mem_cons_of_mem _)
  | rejected hrole _ ih =>
    refine List.forall_mem_cons.2 ⟨⟨_, List.mem_cons_self, hrole, rfl⟩, fun r hr => ?_⟩
    exact (ih r hr).imp fun _ => .imp_left (List.mem_cons_of_mem _)

end AmountTo

namespace Tiling
variable {source : String} {pieces : List Piece} {ts : List Token} {rs : List Report}
  (h : Tiling source pieces) (hamount : AmountTo pieces ts rs)
include h hamount

theorem token_stands {t : Token} (ht : t ∈ ts) : t.text ≠ "" ∧ StandsIn t.text t.location source := by
  obtain ⟨p, hp, -, htext, hplace⟩ := hamount.exists_of_token t ht
  obtain ⟨hne, hstands⟩ := h.stands p hp
  rw [htext, hplace]
  refine ⟨fun hempty => hne ?_, hstands⟩
  rw [← String.toList_ofList (l := p.text), ← Piece.string, hempty, String.toList_empty]

theorem tokens_ordered :
    ts.Pairwise fun t u => t.location.pos + t.text.utf8ByteSize ≤ u.location.pos := by
  have hordered := h.ordered
  clear h
  induction hamount with
  | nil => exact .nil
  | blank _ _ ih => exact ih (List.pairwise_cons.1 hordered).2
  | token _ hrest ih =>
    obtain ⟨hfirst, hothers⟩ := List.pairwise_cons.1 hordered
    refine .cons (fun u hu => ?_) (ih hothers)
    obtain ⟨q, hq, -, -, hplace⟩ := hrest.exists_of_token u hu
    rw [hplace]
    exact hfirst q hq
  | rejected _ _ ih => exact ih (List.pairwise_cons.1 hordered).2

theorem report_stands {r : Report} (hr : r ∈ rs) :
    ∃ text, StandsIn text r.location source ∧ r.problem.Rejects text.toList := by
  obtain ⟨p, hp, hrole, hplace⟩ := hamount.exists_of_report r hr
  refine ⟨p.string, hplace ▸ (h.stands p hp).2, ?_⟩
  rw [Piece.string, String.toList_ofList]
  exact h.rejected p hp r.problem hrole

end Tiling

theorem StandsIn.le {text source : String} {l : Location} (h : StandsIn text l source) :
    l.pos + text.utf8ByteSize ≤ source.utf8ByteSize :=
  h.last.le_rawEndPos

theorem standsIn_end (source : String) : StandsIn "" (.behind source) source := by
  have h := StandsIn.of_append source "" ""
  rwa [String.append_empty, String.append_empty] at h

/-- **Tokens and reports tile the source.**  Its pieces stand in it one behind the other, and every
    byte lies in just one of them; they amount to the tokens before the end of input and to the
    reports, so that each piece is one token, or white space, or is rejected and has one report.
    Tokens stand in the source, each behind the end of the ones before, and so does what is
    rejected. -/
theorem source_tiled (source : String) :
    let all := Token.allOfSource source
    ∃ pieces first, Tiling source pieces ∧ AmountTo pieces first all.reports ∧
      all.tokens = first ++ [⟨.endOfInput, "", .behind source⟩] ∧
      (∀ t ∈ first, t.kind ≠ .endOfInput ∧ t.text ≠ "") ∧
      (∀ t ∈ all.tokens, StandsIn t.text t.location source) ∧
      (all.tokens.Pairwise fun t u => t.location.pos + t.text.utf8ByteSize ≤ u.location.pos) ∧
      ∀ r ∈ all.reports, ∃ text, StandsIn text r.location source ∧ r.problem.Rejects text.toList := by
  intro all
  have htiling := tiling_scan source
  have hamount : AmountTo (scan .start source.toList) ((scan .start source.toList).filterMap Piece.token?)
      all.reports := amountTo_filterMap _
  have hkinds : ∀ p ∈ scan .start source.toList, p.role ≠ .token .endOfInput :=
    forall_scan (fun _ _ _ => role_ne_endOfInput) _ _
  have htokens : all.tokens =
      (scan .start source.toList).filterMap Piece.token? ++ [⟨.endOfInput, "", .behind source⟩] := by
    simp only [all, Token.allOfSource, Location.after_start, String.ofList_toList]
  refine ⟨_, _, htiling, hamount, htokens, fun t ht => ⟨?_, (htiling.token_stands hamount ht).1⟩, ?_, ?_,
    fun r => htiling.report_stands hamount⟩
  · obtain ⟨p, hp, hrole, -⟩ := hamount.exists_of_token t ht
    intro hend
    exact hkinds p hp (hend ▸ hrole)
  · rw [htokens]
    refine List.forall_mem_append.2 ⟨fun t ht => (htiling.token_stands hamount ht).2, ?_⟩
    exact List.forall_mem_singleton.2 (standsIn_end source)
  · rw [htokens, List.pairwise_append]
    refine ⟨htiling.tokens_ordered hamount, List.pairwise_singleton _ _, fun t ht => ?_⟩
    exact List.forall_mem_singleton.2 (htiling.token_stands hamount ht).2.le

end DanishProse

/-
  Written documents are cut into the tokens that they are made of.

  * A `Face` is a token without its place, and `Lexes` says that a text is cut into
    tokens with these faces, and into nothing else but white space;
  * one lemma for each kind of token says that it is cut off the front of a text if
    what follows cannot belong to it (`Boundary`);
  * `faces` lists the tokens of each form of a document, and `lexes_text` says of each
    form that its text is cut into them.  The words and values of the document must be
    such as can be written down (`Part.Writable`, `Sentence.Writable`).
-/
import DanishProse.Proofs.Decimals
import DanishProse.Proofs.Lexing
import DanishProse.Proofs.Pronouns

namespace DanishProse

/-! ## Faces -/

/-- A token without its place. -/
structure Face where
  kind : TokenKind
  text : String
deriving DecidableEq

/-- What a token looks like. -/
def Token.face (t : Token) : Face :=
  ⟨t.kind, t.text⟩

/-- A text is cut into tokens with these faces, comments and white space, wherever it
    stands. -/
def Lexes (cs : List Char) (fs : List Face) : Prop :=
  ∀ l, (((scan l cs).filterMap Piece.token?).filter (·.kind ≠ .comment)).map Token.face = fs ∧
    (scan l cs).filterMap Piece.report? = []

theorem Lexes.nil : Lexes [] [] := by
  intro l
  simp [scan]

/-- A piece that is a token, in front of others. -/
theorem Lexes.cons {c : Char} {cs rest : List Char} {fs : List Face} {kind : TokenKind}
    (hreach : reach c (cs ++ rest) = cs.length) (hrole : role c cs = .token kind)
    (hk : kind ≠ .comment) (h : Lexes rest fs) :
    Lexes (c :: (cs ++ rest)) (⟨kind, String.ofList (c :: cs)⟩ :: fs) := by
  intro l
  obtain ⟨htokens, hreports⟩ := h (l.after (c :: cs))
  rw [scan, hreach, List.take_left, List.drop_left, hrole]
  refine ⟨?_, hreports⟩
  simpa [Piece.token?, hk, Token.face] using htokens

theorem scan_blank {c : Char} (hc : Text.isAsciiBlank c = true) (l : Location) (cs : List Char) :
    scan l (c :: cs) = ⟨.blank, c :: cs.takeWhile Text.isAsciiBlank, l⟩ ::
      scan (l.after (c :: cs.takeWhile Text.isAsciiBlank)) (cs.dropWhile Text.isAsciiBlank) := by
  have hreach : reach c cs = (cs.takeWhile Text.isAsciiBlank).length := by
    rw [reach, if_pos hc]
  have hrole : role c (cs.takeWhile Text.isAsciiBlank) = .blank :=
    if_pos hc
  have hdrop : cs.drop (cs.takeWhile Text.isAsciiBlank).length = cs.dropWhile Text.isAsciiBlank := by
    conv_lhs => rw [← List.takeWhile_append_dropWhile (p := Text.isAsciiBlank) (l := cs)]
    rw [List.drop_left']
    rw [List.takeWhile_append_dropWhile]
  rw [scan, hreach, take_length_takeWhile, hrole, hdrop]

/-- White space in front of a text. -/
theorem Lexes.blank {c : Char} {cs : List Char} {fs : List Face} (hc : Text.isAsciiBlank c = true)
    (h : Lexes cs fs) : Lexes (c :: cs) fs := by
  intro l
  have hl := h (l.next c)
  rw [scan_blank hc]
  cases cs with
  | nil => exact hl
  | cons b bs =>
    cases hb : Text.isAsciiBlank b with
    | false =>
      rw [List.takeWhile_cons_of_neg (Bool.eq_false_iff.1 hb), List.dropWhile_cons_of_neg (Bool.eq_false_iff.1 hb)]
      exact hl
    | true =>
      rw [scan_blank hb] at hl
      rw [List.takeWhile_cons_of_pos hb, List.dropWhile_cons_of_pos hb]
      exact hl

/-! ## Words and signs -/

/-- A text that does not go on with a word or a number in front of it. -/
def Boundary : List Char → Prop
  | [] => True
  | c :: cs => isWordRest c = false ∧ (c = ',' → ∃ ds, cs = ' ' :: ds)

theorem boundary_blank {c : Char} {cs : List Char} (hc : Text.isAsciiBlank c = true) : Boundary (c :: cs) := by
  simp only [Text.isAsciiBlank, Bool.or_eq_true, beq_iff_eq] at hc
  rcases hc with (((rfl | rfl) | rfl) | rfl) | rfl <;> exact ⟨by decide, fun h => absurd h (by decide)⟩

theorem boundary_dot {cs : List Char} : Boundary ('.' :: cs) :=
  ⟨by decide, fun h => absurd h (by decide)⟩

theorem boundary_parenClose {cs : List Char} : Boundary (')' :: cs) :=
  ⟨by decide, fun h => absurd h (by decide)⟩

theorem isAsciiBlank_of_isWordStart {c : Char} (h : isWordStart c = true) : Text.isAsciiBlank c = false := by
  rw [Bool.eq_false_iff]
  intro hb
  simp only [Text.isAsciiBlank, Bool.or_eq_true, beq_iff_eq] at hb
  rcases hb with (((rfl | rfl) | rfl) | rfl) | rfl <;> revert h <;> decide

theorem Boundary.takeWhile {cs rest : List Char} (h : Boundary rest) (hcs : ∀ c ∈ cs, isWordRest c = true) :
    (cs ++ rest).takeWhile isWordRest = cs := by
  rw [List.takeWhile_append_of_pos hcs]
  cases rest with
  | nil => simp
  | cons c rest => rw [List.takeWhile_cons_of_neg (by rw [h.1]; decide), List.append_nil]

/-- What a word looks like as a token. -/
def wordFace (text : String) : Face :=
  ⟨wordKind text, text⟩

/-- A word in front of what does not belong to it. -/
theorem Lexes.word {text : String} {rest : List Char} {fs : List Face} (hs : IsSpelled text)
    (hk : wordKind text ≠ .comment) (hb : Boundary rest) (h : Lexes rest fs) :
    Lexes (text.toList ++ rest) (wordFace text :: fs) := by
  obtain ⟨c, cs, htext, hc, hcs⟩ := hs
  have hword : String.ofList (c :: cs) = text := by rw [← htext, String.ofList_toList]
  have hblank := isAsciiBlank_of_isWordStart hc
  have htake := hb.takeWhile hcs
  have hreach : reach c (cs ++ rest) = cs.length := by
    rw [(reach_of_isWordStart hblank hc).2, htake]
    rw [htake, hword]
    exact wordKind_ne_comment hk
  have hrole : role c cs = .token (wordKind text) := by
    unfold role
    rw [if_neg (Bool.eq_false_iff.1 hblank), if_pos hc, List.takeWhile_eq_self_iff.2 hcs, hword]
  rw [htext, wordFace]
  have := Lexes.cons hreach hrole hk h
  rwa [hword] at this

/-- A word as it stands in every written document. -/
def isFixedWord (w : String) : Bool :=
  match w.toList with
  | [] => false
  | c :: cs => isWordStart c && cs.all isWordRest && decide (wordKind w ≠ .comment)

theorem Lexes.fixedWord {w : String} {rest : List Char} {fs : List Face} (hw : isFixedWord w = true)
    (hb : Boundary rest) (h : Lexes rest fs) : Lexes (w.toList ++ rest) (wordFace w :: fs) := by
  unfold isFixedWord at hw
  split at hw
  · cases hw
  · next c cs htext =>
    simp only [Bool.and_eq_true, List.all_eq_true, decide_eq_true_eq] at hw
    exact Lexes.word ⟨c, cs, htext, hw.1.1, hw.1.2⟩ hw.2 hb h

theorem Lexes.sign {c : Char} {kind : TokenKind} {rest : List Char} {fs : List Face}
    (hc : signKind? c = some kind) (h : Lexes rest fs) :
    Lexes (c :: rest) (⟨kind, String.ofList [c]⟩ :: fs) := by
  refine @Lexes.cons c [] rest fs kind ?_ ?_ ?_ h
  · rcases signKind?_cases hc with ⟨rfl, -⟩ | ⟨rfl, -⟩ | ⟨rfl, -⟩ | ⟨rfl, -⟩ <;> rfl
  · rcases signKind?_cases hc with ⟨rfl, rfl⟩ | ⟨rfl, rfl⟩ | ⟨rfl, rfl⟩ | ⟨rfl, rfl⟩ <;> rfl
  · rcases signKind?_cases hc with ⟨-, rfl⟩ | ⟨-, rfl⟩ | ⟨-, rfl⟩ | ⟨-, rfl⟩ <;> nofun

/-! ## Numbers -/

theorem numberReach_append {cs : List Char} (rest : List Char) (h : ∀ c ∈ cs, isDigit c = true) :
    numberReach (cs ++ rest) = cs.length + numberReach rest := by
  induction cs with
  | nil => simp
  | cons c cs ih =>
    obtain ⟨hc, hcs⟩ := List.forall_mem_cons.1 h
    rw [List.cons_append, List.length_cons]
    specialize ih hcs
    generalize hds : cs ++ rest = ds at *
    cases ds with
    | nil =>
      rw [numberReach, if_pos hc]
      simp [numberReach] at ih
      simp at hds
      simp [hds, numberReach]
    | cons d ds =>
      rw [numberReach, if_pos hc, ih]
      omega

theorem numberReach_tail {c : Char} {cs ds : List Char} (hc : isDigit c = true)
    (h : numberReach (c :: cs ++ ds) = (c :: cs).length) : numberReach (cs ++ ds) = cs.length := by
  rw [show c :: cs ++ ds = [c] ++ (cs ++ ds) from rfl, numberReach_append (cs ++ ds) (by simpa using hc)] at h
  simp at h
  omega

/-- A comma goes on with a number if there are digits behind it. -/
theorem numberReach_comma {cs rest : List Char} (h : AreDigits cs) :
    numberReach (',' :: (cs ++ rest)) = cs.length + 1 + numberReach rest := by
  have hreach := numberReach_append rest h.digits
  obtain ⟨hne, hdigits⟩ := h
  cases cs with
  | nil => exact absurd rfl hne
  | cons c cs =>
    have hc : (',' == ',' && isDigit c) = true := by simp [hdigits c List.mem_cons_self]
    rw [List.cons_append] at hreach ⊢
    rw [numberReach, if_neg (by decide), if_pos hc, hreach]
    omega

theorem Boundary.numberReach {rest : List Char} (h : Boundary rest) : numberReach rest = 0 := by
  match rest, h with
  | [], _ => rfl
  | [c], h =>
    have hc : isDigit c = false := by
      have := h.1
      simp only [isWordRest, Bool.or_eq_false_iff] at this
      exact this.1.2
    simp [DanishProse.numberReach, hc]
  | c :: d :: ds, h =>
    have hc : isDigit c = false := by
      have := h.1
      simp only [isWordRest, Bool.or_eq_false_iff] at this
      exact this.1.2
    have hcomma : (c == ',' && isDigit d) = false := by
      rw [Bool.and_eq_false_iff, beq_eq_false_iff_ne]
      by_cases hcc : c = ','
      · obtain ⟨_, he⟩ := h.2 hcc
        rw [(List.cons.inj he).1]
        exact .inr (by decide)
      · exact .inl hcc
    rw [DanishProse.numberReach, hc, hcomma]
    rfl

theorem not_word_of_isDigit {c : Char} (h : isDigit c = true) :
    Text.isAsciiBlank c = false ∧ isWordStart c = false ∧ isSign c = false := by
  have hascii : ∀ n : Fin 128, isDigit (Char.ofNat n) = true →
      Text.isAsciiBlank (Char.ofNat n) = false ∧ isWordStart (Char.ofNat n) = false ∧
        isSign (Char.ofNat n) = false := by
    decide
  have hlt : c.toNat < 128 := by
    simp only [isDigit, Bool.and_eq_true, decide_eq_true_eq, Char.le_def] at h
    have := UInt32.le_iff_toNat_le.1 h.2
    exact Nat.lt_of_le_of_lt this (by decide)
  have := hascii ⟨c.toNat, hlt⟩
  rw [Char.ofNat_toNat] at this
  exact this h

/-- A number in front of what does not belong to it. -/
theorem Lexes.number {text : String} {rest : List Char} {fs : List Face} {v : Literal}
    (hc : ∃ c cs, text.toList = c :: cs ∧ isDigit c = true)
    (hreach : DanishProse.numberReach (text.toList ++ rest) = text.toList.length)
    (hv : numberLiteral? text.toList = some v) (h : Lexes rest fs) :
    Lexes (text.toList ++ rest) (⟨.literal v, text⟩ :: fs) := by
  obtain ⟨c, cs, htext, hc⟩ := hc
  obtain ⟨hblank, hword, hsign⟩ := not_word_of_isDigit hc
  have hofList : String.ofList (c :: cs) = text := by rw [← htext, String.ofList_toList]
  rw [htext] at hreach hv ⊢
  have hreach : reach c (cs ++ rest) = cs.length := by
    rw [reach, if_neg (Bool.eq_false_iff.1 hblank), if_neg (Bool.eq_false_iff.1 hword), if_pos hc]
    exact numberReach_tail hc hreach
  have hrole : role c cs = .token (.literal v) := by
    unfold role
    rw [if_neg (Bool.eq_false_iff.1 hblank), if_neg (Bool.eq_false_iff.1 hword),
      if_neg (Bool.eq_false_iff.1 hsign), if_pos hc, hv]
  have := Lexes.cons hreach hrole (by nofun) h
  rwa [hofList] at this

/-! ## Texts with spaces between them -/

/-- A text is cut into tokens with these faces in front of whatever does not belong to it. -/
def Detaches (text : String) (fs : List Face) : Prop :=
  ∀ rest gs, Boundary rest → Lexes rest gs → Lexes (text.toList ++ rest) (fs ++ gs)

/-- Texts of which each is cut off on its own are so one behind the other, with spaces between them. -/
theorem Detaches.joined {α : Type} {text : α → String} {faces : α → List Face} {xs : List α}
    (h : ∀ x ∈ xs, Detaches (text x) (faces x)) :
    Detaches (Text.joined " " (xs.map text)) (xs.flatMap faces) := by
  intro rest gs hb hrest
  induction xs with
  | nil => exact hrest
  | cons x xs ih =>
    obtain ⟨hx, hxs⟩ := List.forall_mem_cons.1 h
    specialize ih hxs
    rw [List.flatMap_cons, List.append_assoc]
    cases xs with
    | nil =>
      rw [List.map_singleton, Text.joined, String.intercalate_singleton]
      exact hx rest _ hb ih
    | cons y ys =>
      have htext : (Text.joined " " ((x :: y :: ys).map text)).toList ++ rest =
          (text x).toList ++ ' ' :: ((Text.joined " " ((y :: ys).map text)).toList ++ rest) := by
        simp only [Text.joined, List.map_cons, String.intercalate_cons_cons, String.toList_append,
          List.append_assoc]
        rfl
      rw [htext]
      exact hx _ _ (boundary_blank rfl) (Lexes.blank rfl ih)

/-! ## Literals -/

/-- A literal that can be written down: no number below zero, and no floating point
    number without digits. -/
def Literal.Writable : Literal → Prop
  | .integer v => 0 ≤ v.toInt
  | .float bits => Binary64.IsPlain bits
  | .boolean _ => True

/-- **A literal is cut off as itself.** -/
theorem Literal.lexes_text {v : Literal} {rest : List Char} {fs : List Face} (hv : v.Writable)
    (hb : Boundary rest) (h : Lexes rest fs) :
    Lexes (v.text.toList ++ rest) (⟨.literal v, v.text⟩ :: fs) := by
  cases v with
  | boolean b =>
    have hkind : wordFace (truthWord b) = ⟨.literal (.boolean b), truthWord b⟩ := by
      cases b <;> decide +kernel
    rw [Literal.text, ← hkind]
    exact Lexes.fixedWord (by cases b <;> decide +kernel) hb h
  | integer n =>
    obtain ⟨hdigits, hvalue⟩ := integerText_reads hv
    have hliteral := numberLiteral?_integer hdigits
    rw [hvalue] at hliteral
    refine Lexes.number hdigits.first ?_ hliteral h
    rw [numberReach_append rest hdigits.digits, hb.numberReach]
    rfl
  | float bits =>
    obtain ⟨whole, fraction, htext, hw, hf, hvalue⟩ := floatText_reads hv
    have hliteral := numberLiteral?_float hw hf
    rw [hvalue, ← htext] at hliteral
    refine Lexes.number ?_ ?_ hliteral h
    · obtain ⟨d, ds, rfl, hd⟩ := hw.first
      exact ⟨d, _, htext, hd⟩
    · rw [htext, List.append_assoc, numberReach_append _ hw.digits, List.cons_append, numberReach_comma hf,
        hb.numberReach]
      simp

/-! ## Clauses -/

mutual

/-- The tokens of a part. -/
def Part.faces : Part → List Face
  | .word w => [wordFace w]
  | .literal v => [⟨.literal v, v.text⟩]
  | .list cs => ⟨.parenOpen, "("⟩ :: (clausesFaces cs ++ [⟨.parenClose, ")"⟩])
termination_by structural p => p

/-- The tokens of a clause. -/
def Clause.faces : Clause → List Face
  | .mk _ ps => partsFaces ps
termination_by structural c => c

/-- The tokens of parts. -/
def partsFaces : List Part → List Face
  | [] => []
  | p :: ps => p.faces ++ partsFaces ps
termination_by structural ps => ps

/-- The tokens of clauses and of what stands between them. -/
def clausesFaces : List Clause → List Face
  | [] => []
  | [c] => c.faces
  | c :: d :: cs => c.faces ++ ⟨.comma, ","⟩ :: wordFace "og" :: clausesFaces (d :: cs)

end

/-- A word or a value that can be written down. -/
def Part.Writable : Part → Prop
  | .word w => IsWord w
  | .literal v => v.Writable
  | .list _ => True

theorem Lexes.isWord {w : String} {rest : List Char} {fs : List Face} (hw : IsWord w)
    (hb : Boundary rest) (h : Lexes rest fs) : Lexes (w.toList ++ rest) (wordFace w :: fs) :=
  Lexes.word hw.spelled (by simp [hw.kind]) hb h

mutual

theorem Part.lexes_text : ∀ (p : Part), (∀ q ∈ p.leaves, q.Writable) → ∀ {rest fs}, Boundary rest →
    Lexes rest fs → Lexes (p.text.toList ++ rest) (p.faces ++ fs)
  | .word w, hp, _, _, hb, h => Lexes.isWord (hp (.word w) (by simp [Part.leaves])) hb h
  | .literal v, hp, _, _, hb, h => Literal.lexes_text (hp (.literal v) (by simp [Part.leaves])) hb h
  | .list cs, hp, rest, fs, _, h => by
    have htext : (Part.list cs).text.toList ++ rest = '(' :: ((clausesText cs).toList ++ ')' :: rest) := by
      simp [Part.text]
    have hfaces : (Part.list cs).faces ++ fs =
        ⟨.parenOpen, "("⟩ :: (clausesFaces cs ++ ⟨.parenClose, ")"⟩ :: fs) := by
      simp [Part.faces]
    rw [htext, hfaces]
    exact Lexes.sign rfl (clausesText_lexes cs hp boundary_parenClose (Lexes.sign rfl h))

theorem Clause.lexes_text : ∀ (c : Clause), (∀ q ∈ c.leaves, q.Writable) → ∀ {rest fs}, Boundary rest →
    Lexes rest fs → Lexes (c.text.toList ++ rest) (c.faces ++ fs)
  | .mk _ ps, hc, _, _, hb, h => partsText_lexes ps hc hb h

theorem partsText_lexes : ∀ (ps : List Part), (∀ q ∈ partsLeaves ps, q.Writable) → ∀ {rest fs},
    Boundary rest → Lexes rest fs → Lexes ((partsText ps).toList ++ rest) (partsFaces ps ++ fs)
  | [], _, _, _, _, h => h
  | [p], hp, _, _, hb, h => by
    rw [partsFaces, partsFaces, List.append_nil]
    exact p.lexes_text (List.forall_mem_append.1 hp).1 hb h
  | p :: q :: ps, hp, rest, fs, hb, h => by
    obtain ⟨hp, hps⟩ := List.forall_mem_append.1 hp
    have htext : (partsText (p :: q :: ps)).toList ++ rest =
        p.text.toList ++ ' ' :: ((partsText (q :: ps)).toList ++ rest) := by
      simp [partsText]
    rw [htext, partsFaces, List.append_assoc]
    exact p.lexes_text hp (boundary_blank rfl) (Lexes.blank rfl (partsText_lexes (q :: ps) hps hb h))

theorem clausesText_lexes : ∀ (cs : List Clause), (∀ q ∈ clausesLeaves cs, q.Writable) → ∀ {rest fs},
    Boundary rest → Lexes rest fs → Lexes ((clausesText cs).toList ++ rest) (clausesFaces cs ++ fs)
  | [], _, _, _, _, h => h
  | [c], hc, _, _, hb, h => c.lexes_text (List.forall_mem_append.1 hc).1 hb h
  | c :: d :: cs, hc, rest, fs, hb, h => by
    obtain ⟨hc, hcs⟩ := List.forall_mem_append.1 hc
    have htext : (clausesText (c :: d :: cs)).toList ++ rest =
        c.text.toList ++ ',' :: ' ' :: ("og".toList ++ ' ' :: ((clausesText (d :: cs)).toList ++ rest)) := by
      simp [clausesText]
    have hfaces : clausesFaces (c :: d :: cs) ++ fs =
        c.faces ++ ⟨.comma, ","⟩ :: wordFace "og" :: (clausesFaces (d :: cs) ++ fs) := by
      simp [clausesFaces]
    have hcomma : Boundary (',' :: ' ' :: ("og".toList ++ ' ' :: ((clausesText (d :: cs)).toList ++ rest))) :=
      ⟨by decide, fun _ => ⟨_, rfl⟩⟩
    rw [htext, hfaces]
    exact c.lexes_text hc hcomma (Lexes.sign rfl (Lexes.blank rfl
      (Lexes.fixedWord (by decide +kernel) (boundary_blank rfl) (Lexes.blank rfl
        (clausesText_lexes (d :: cs) hcs hb h)))))

end

/-! ## Sentences -/

/-- The full stop. -/
def dotFace : Face :=
  ⟨.dot, "."⟩

/-- The tokens of a block with these between its greeting and its farewell. -/
def blockFaces (inner : List Face) : List Face :=
  wordFace "Goddag" :: dotFace :: (inner ++ [wordFace "Farvel", dotFace])

mutual

/-- The tokens of a sentence. -/
def Sentence.faces : Sentence → List Face
  | .declare name typeName _ =>
    [wordFace "Lad", wordFace name, wordFace "være", wordFace "et", wordFace typeName, dotFace]
  | .express cs => clausesFaces cs ++ [dotFace]
  | .giveBack cs => wordFace "Tilbagegiv" :: (clausesFaces cs ++ [dotFace])
  | .when cs body =>
    wordFace "Hvis" :: (clausesFaces cs ++ dotFace :: blockFaces (sentencesFaces body))
  | .whenElse cs body otherwise =>
    wordFace "Hvis" :: (clausesFaces cs ++ dotFace :: (blockFaces (sentencesFaces body) ++
      wordFace "Ellers" :: dotFace :: blockFaces (sentencesFaces otherwise)))
  | .loop cs body =>
    wordFace "Imens" :: (clausesFaces cs ++ dotFace :: blockFaces (sentencesFaces body))
termination_by structural s => s

/-- The tokens of sentences. -/
def sentencesFaces : List Sentence → List Face
  | [] => []
  | s :: ss => s.faces ++ sentencesFaces ss
termination_by structural ss => ss

end

/-- The words and values of a list can be written down. -/
def ListWritable (cs : List Clause) : Prop :=
  ∀ q ∈ clausesLeaves cs, q.Writable

mutual

/-- The words and values of a sentence can be written down. -/
def Sentence.Writable : Sentence → Prop
  | .declare name typeName _ => IsWord name ∧ IsWord typeName
  | .express cs => ListWritable cs
  | .giveBack cs => ListWritable cs
  | .when cs body => ListWritable cs ∧ SentencesWritable body
  | .whenElse cs body otherwise => ListWritable cs ∧ SentencesWritable body ∧ SentencesWritable otherwise
  | .loop cs body => ListWritable cs ∧ SentencesWritable body
termination_by structural s => s

/-- The words and values of sentences can be written down. -/
def SentencesWritable : List Sentence → Prop
  | [] => True
  | s :: ss => s.Writable ∧ SentencesWritable ss
termination_by structural ss => ss

end

theorem Lexes.dot {rest : List Char} {fs : List Face} (h : Lexes rest fs) :
    Lexes ('.' :: rest) (dotFace :: fs) :=
  Lexes.sign rfl h

section
variable {rest : List Char} {fs gs : List Face}

/-- A block whose inside is cut into tokens. -/
theorem lexes_block {body : List Sentence} (hrest : Lexes rest fs)
    (hbody : ∀ {rest fs}, Lexes rest fs → Lexes ((linesText body).toList ++ rest) (gs ++ fs)) :
    Lexes ((blockText body).toList ++ rest) (blockFaces gs ++ fs) := by
  have htext : (blockText body).toList ++ rest = "Goddag".toList ++ '.' :: '\n' ::
      ((linesText body).toList ++ ("Farvel".toList ++ '.' :: rest)) := by
    simp [blockText]
  have hfaces : blockFaces gs ++ fs =
      wordFace "Goddag" :: dotFace :: (gs ++ wordFace "Farvel" :: dotFace :: fs) := by
    simp [blockFaces]
  rw [htext, hfaces]
  have hfarewell := Lexes.fixedWord (w := "Farvel") (by decide +kernel) boundary_dot hrest.dot
  exact Lexes.fixedWord (by decide +kernel) boundary_dot (Lexes.dot (Lexes.blank rfl (hbody hfarewell)))

/-- A list between a word and a full stop. -/
theorem lexes_headed {w : String} {cs : List Clause} (hw : isFixedWord w = true) (hcs : ListWritable cs)
    (hrest : Lexes rest fs) :
    Lexes (w.toList ++ ' ' :: ((clausesText cs).toList ++ '.' :: rest))
      (wordFace w :: (clausesFaces cs ++ dotFace :: fs)) :=
  Lexes.fixedWord hw (boundary_blank rfl)
    (Lexes.blank rfl (clausesText_lexes cs hcs boundary_dot hrest.dot))

end

mutual

theorem Sentence.lexes_text : ∀ (s : Sentence), s.Writable → ∀ {rest fs}, Lexes rest fs →
    Lexes (s.text.toList ++ rest) (s.faces ++ fs)
  | .declare name typeName l, hs, rest, fs, h => by
    have htext : (Sentence.declare name typeName l).text.toList ++ rest =
        "Lad".toList ++ ' ' :: (name.toList ++ ' ' :: ("være".toList ++ ' ' :: ("et".toList ++
          ' ' :: (typeName.toList ++ '.' :: rest)))) := by
      simp [Sentence.text, toString]
    rw [htext]
    exact Lexes.fixedWord (by decide +kernel) (boundary_blank rfl) <| Lexes.blank rfl <|
      Lexes.isWord hs.1 (boundary_blank rfl) <| Lexes.blank rfl <|
      Lexes.fixedWord (by decide +kernel) (boundary_blank rfl) <| Lexes.blank rfl <|
      Lexes.fixedWord (by decide +kernel) (boundary_blank rfl) <| Lexes.blank rfl <|
      Lexes.isWord hs.2 boundary_dot h.dot
  | .express cs, hs, rest, fs, h => by
    have htext : (Sentence.express cs).text.toList ++ rest = (clausesText cs).toList ++ '.' :: rest := by
      simp [Sentence.text]
    rw [htext, Sentence.faces, List.append_assoc]
    exact clausesText_lexes cs hs boundary_dot h.dot
  | .giveBack cs, hs, rest, fs, h => by
    have htext : (Sentence.giveBack cs).text.toList ++ rest =
        "Tilbagegiv".toList ++ ' ' :: ((clausesText cs).toList ++ '.' :: rest) := by
      simp [Sentence.text]
    rw [htext, Sentence.faces, List.cons_append, List.append_assoc]
    exact lexes_headed (by decide +kernel) hs h
  | .when cs body, hs, rest, fs, h => by
    have htext : (Sentence.when cs body).text.toList ++ rest =
        "Hvis".toList ++ ' ' :: ((clausesText cs).toList ++ '.' :: '\n' ::
          ((blockText body).toList ++ rest)) := by
      simp [Sentence.text, blockText]
    rw [htext, Sentence.faces, List.cons_append, List.append_assoc]
    have hblock := lexes_block h (linesText_lexes body hs.2)
    exact lexes_headed (by decide +kernel) hs.1 (Lexes.blank rfl hblock)
  | .whenElse cs body otherwise, hs, rest, fs, h => by
    have htext : (Sentence.whenElse cs body otherwise).text.toList ++ rest =
        "Hvis".toList ++ ' ' :: ((clausesText cs).toList ++ '.' :: '\n' ::
          ((blockText body).toList ++ '\n' :: ("Ellers".toList ++ '.' :: '\n' ::
            ((blockText otherwise).toList ++ rest)))) := by
      simp [Sentence.text, blockText]
    have hfaces : (Sentence.whenElse cs body otherwise).faces ++ fs =
        wordFace "Hvis" :: (clausesFaces cs ++ dotFace :: (blockFaces (sentencesFaces body) ++
          wordFace "Ellers" :: dotFace :: (blockFaces (sentencesFaces otherwise) ++ fs))) := by
      simp [Sentence.faces]
    rw [htext, hfaces]
    have hother := lexes_block h (linesText_lexes otherwise hs.2.2)
    have hellers := Lexes.fixedWord (w := "Ellers") (by decide +kernel) boundary_dot
      (Lexes.dot (Lexes.blank (c := '\n') rfl hother))
    have hblock := lexes_block (Lexes.blank (c := '\n') rfl hellers) (linesText_lexes body hs.2.1)
    exact lexes_headed (by decide +kernel) hs.1 (Lexes.blank rfl hblock)
  | .loop cs body, hs, rest, fs, h => by
    have htext : (Sentence.loop cs body).text.toList ++ rest =
        "Imens".toList ++ ' ' :: ((clausesText cs).toList ++ '.' :: '\n' ::
          ((blockText body).toList ++ rest)) := by
      simp [Sentence.text, blockText]
    rw [htext, Sentence.faces, List.cons_append, List.append_assoc]
    have hblock := lexes_block h (linesText_lexes body hs.2)
    exact lexes_headed (by decide +kernel) hs.1 (Lexes.blank rfl hblock)

theorem linesText_lexes : ∀ (ss : List Sentence), SentencesWritable ss → ∀ {rest fs}, Lexes rest fs →
    Lexes ((linesText ss).toList ++ rest) (sentencesFaces ss ++ fs)
  | [], _, _, _, h => h
  | s :: ss, hs, rest, fs, h => by
    have htext : (linesText (s :: ss)).toList ++ rest =
        s.text.toList ++ '\n' :: ((linesText ss).toList ++ rest) := by
      simp [linesText]
    rw [htext, sentencesFaces, List.append_assoc]
    exact s.lexes_text hs.1 (Lexes.blank rfl (linesText_lexes ss hs.2 h))

end

/-! ## Definitions -/

/-- The tokens of a position of a pattern. -/
def PatternPart.faces : PatternPart → List Face
  | .word name => [wordFace name]
  | .parameter name typeName =>
    [⟨.parenOpen, "("⟩, wordFace name, wordFace "som", wordFace typeName, ⟨.parenClose, ")"⟩]

/-- The tokens of a definition. -/
def Definition.faces (d : Definition) : List Face :=
  wordFace "Offentlig" :: wordFace "funktion" :: (d.pattern.parts.flatMap PatternPart.faces ++
    wordFace "tilbagegiver" :: wordFace d.returnName :: dotFace :: blockFaces (sentencesFaces d.body))

/-- The words of a position of a pattern can be written down. -/
def PatternPart.Writable : PatternPart → Prop
  | .word name => IsWord name
  | .parameter name typeName => IsWord name ∧ IsWord typeName

/-- The words and values of a definition can be written down. -/
structure Definition.Writable (d : Definition) : Prop where
  pattern : ∀ p ∈ d.pattern.parts, p.Writable
  returnName : IsWord d.returnName
  body : SentencesWritable d.body

theorem PatternPart.lexes_text {p : PatternPart} {rest : List Char} {fs : List Face} (hp : p.Writable)
    (hb : Boundary rest) (h : Lexes rest fs) : Lexes (p.text.toList ++ rest) (p.faces ++ fs) := by
  cases p with
  | word name => exact Lexes.isWord hp hb h
  | parameter name typeName =>
    have htext : (PatternPart.parameter name typeName).text.toList ++ rest =
        '(' :: (name.toList ++ ' ' :: ("som".toList ++ ' ' :: (typeName.toList ++ ')' :: rest))) := by
      simp [PatternPart.text, toString]
    rw [htext]
    exact Lexes.sign rfl <| Lexes.isWord hp.1 (boundary_blank rfl) <| Lexes.blank rfl <|
      Lexes.fixedWord (by decide +kernel) (boundary_blank rfl) <| Lexes.blank rfl <|
      Lexes.isWord hp.2 boundary_parenClose (Lexes.sign rfl h)

theorem joined_lexes {ps : List PatternPart} {rest : List Char} {fs : List Face}
    (hp : ∀ p ∈ ps, p.Writable) (hb : Boundary rest) (h : Lexes rest fs) :
    Lexes ((Text.joined " " (ps.map PatternPart.text)).toList ++ rest)
      (ps.flatMap PatternPart.faces ++ fs) :=
  have hall : Detaches (Text.joined " " (ps.map PatternPart.text)) (ps.flatMap PatternPart.faces) :=
    Detaches.joined fun p hmem _ _ => p.lexes_text (hp p hmem)
  hall rest fs hb h

theorem Definition.lexes_text {d : Definition} {rest : List Char} {fs : List Face} (hd : d.Writable)
    (h : Lexes rest fs) : Lexes (d.text.toList ++ rest) (d.faces ++ fs) := by
  have htext : d.text.toList ++ rest = "Offentlig".toList ++ ' ' :: ("funktion".toList ++
      ' ' :: (d.pattern.text.toList ++ ' ' :: ("tilbagegiver".toList ++ ' ' :: (d.returnName.toList ++
        '.' :: '\n' :: ((blockText d.body).toList ++ rest))))) := by
    have hform : d.text = "Offentlig funktion " ++ d.pattern.text ++ " tilbagegiver " ++ d.returnName ++
      ".\n" ++ blockText d.body := rfl
    rw [hform]
    generalize blockText d.body = body
    simp
  have hfaces : d.faces ++ fs = wordFace "Offentlig" :: wordFace "funktion" ::
      (d.pattern.parts.flatMap PatternPart.faces ++ wordFace "tilbagegiver" :: wordFace d.returnName ::
        dotFace :: (blockFaces (sentencesFaces d.body) ++ fs)) := by
    simp [Definition.faces]
  rw [htext, hfaces]
  have hbody := lexes_block h (linesText_lexes d.body hd.body)
  have hreturn := Lexes.isWord hd.returnName boundary_dot (Lexes.dot (Lexes.blank (c := '\n') rfl hbody))
  have hgive := Lexes.fixedWord (w := "tilbagegiver") (by decide +kernel) (boundary_blank rfl)
    (Lexes.blank (c := ' ') rfl hreturn)
  have hpattern := joined_lexes hd.pattern (boundary_blank rfl) (Lexes.blank (c := ' ') rfl hgive)
  exact Lexes.fixedWord (by decide +kernel) (boundary_blank rfl) <| Lexes.blank rfl <|
    Lexes.fixedWord (by decide +kernel) (boundary_blank rfl) (Lexes.blank rfl hpattern)

/-! ## Documents -/

/-- The tokens of a document. -/
def Document.faces (d : Document) : List Face :=
  d.definitions.flatMap Definition.faces

/-- The words and values of a document can be written down. -/
def Document.Writable (d : Document) : Prop :=
  ∀ f ∈ d.definitions, f.Writable

/-- **The text of a document is cut into its tokens.** -/
theorem Document.lexes_text {d : Document} (hd : d.Writable) : Lexes d.text.toList d.faces := by
  obtain ⟨fs⟩ := d
  rw [Document.text, Document.faces, String.toList_join]
  induction fs with
  | nil => exact Lexes.nil
  | cons f fs ih =>
    obtain ⟨hf, hfs⟩ := List.forall_mem_cons.1 hd
    have htext : (((f :: fs).map fun g => g.text ++ "\n").flatMap String.toList) =
        f.text.toList ++ '\n' :: ((fs.map fun g => g.text ++ "\n").flatMap String.toList) := by
      simp
    rw [htext, List.flatMap_cons]
    exact f.lexes_text hf (Lexes.blank rfl (ih hfs))

end DanishProse

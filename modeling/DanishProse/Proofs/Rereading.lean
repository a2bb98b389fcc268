/-
  What was read is read again from its text.

  * The words of a text can be written down, and so can its values, but for those
    that `Plain` leaves out (`tokens_spelled`, `Sentence.Derives.writable`);
  * tokens that look like those of a form derive that form again, but for places
    (`Part.rereads`, `Sentence.Derives.rereads`, `Document.Derives.rereads`);
  * `Document.Plain` says of a document what its text cannot say: no number is below
    zero or infinite, and no sentence that is only a list begins like another form.
-/
import DanishProse.Proofs.Acceptance
import DanishProse.Proofs.Relocation
import DanishProse.Proofs.Writing

namespace DanishProse

/-! ## The tokens of a text -/

/-- What a token says as a part has a property. -/
structure Token.Says (P : Part → Prop) (t : Token) : Prop where
  word : t.kind = .word → P (.word t.text)
  literal : ∀ v, t.kind = .literal v → P (.literal v)

/-- A word or a value as texts have them: no floating point number is below zero. -/
def Part.Spelled : Part → Prop
  | .word w => IsWord w
  | .literal (.float bits) => Binary64.isNegative bits = false
  | _ => True

theorem float_nonnegative {cs : List Char} {bits : UInt64}
    (h : numberLiteral? cs = some (.float bits)) : Binary64.isNegative bits = false := by
  unfold numberLiteral? at h
  dsimp only at h
  split at h
  · cases h
  · split_ifs at h
    injection h with h
    injection h with h
    rw [← h]
    exact Binary64.nearest_nonnegative (Nat.pow_pos (by decide))

theorem says_of_role {c : Char} {cs : List Char} {kind : TokenKind} {l : Location}
    (h : role c (cs.take (reach c cs)) = .token kind) :
    Token.Says Part.Spelled ⟨kind, String.ofList (c :: cs.take (reach c cs)), l⟩ := by
  constructor
  · rintro rfl
    exact isWord_of_role h
  · rintro v rfl
    rcases role_cases h with ⟨-, -, hk⟩ | hk | ⟨-, v, hv, hk⟩
    · rcases wordKind_cases (String.ofList (c :: (cs.take (reach c cs)).takeWhile isWordRest)) with
        he | ⟨v, he⟩ | ⟨v, he⟩ | he <;> rw [he] at hk <;> cases hk <;> trivial
    · rcases signKind?_cases hk with ⟨-, hk⟩ | ⟨-, hk⟩ | ⟨-, hk⟩ | ⟨-, hk⟩ <;> cases hk
    · injection hk with hk
      subst hk
      cases v with
      | float bits => exact float_nonnegative hv
      | integer n => trivial
      | boolean b => trivial

/-- **The words and values of a text are such as texts have them.** -/
theorem tokens_spelled (source : String) :
    ∀ t ∈ (Token.ofSource source).beforeEnd, t.Says Part.Spelled :=
  forall_beforeEnd (P := Token.Says Part.Spelled) (fun _ _ _ _ hrole _ => says_of_role hrole) source

/-! ## Plain documents -/

/-- A number is not below zero and not infinite. -/
def Literal.Plain : Literal → Prop
  | .integer v => 0 ≤ v.toInt
  | .float bits => Binary64.isNaN bits = false ∧ Binary64.isInfinite bits = false
  | .boolean _ => True

/-- A part that is a number is a plain one. -/
def Part.Plain : Part → Prop
  | .literal v => v.Plain
  | _ => True

/-- The numbers of a list are plain, at any depth. -/
def ListPlain (cs : List Clause) : Prop :=
  ∀ q ∈ clausesLeaves cs, q.Plain

/-- The words that begin something else than a list, or end a block. -/
def leaders : List String :=
  ["lad", "hvis", "imens", "imedens", "tilbagegiv", "farvel", "ellers"]

/-- The word that a list begins with, if it begins with one. -/
def leadingWord? : List Clause → Option String
  | .mk _ (.word w :: _) :: _ => some w
  | _ => none

/-- A list does not begin like another form. -/
def StartsFreely (cs : List Clause) : Prop :=
  ∀ w ∈ leadingWord? cs, ∀ leader ∈ leaders, Text.sameWord w leader = false

mutual

/-- The numbers of a sentence are plain, and the lists that are sentences do not begin
    like other forms. -/
def Sentence.Plain : Sentence → Prop
  | .declare _ _ _ => True
  | .express cs => ListPlain cs ∧ StartsFreely cs
  | .giveBack cs => ListPlain cs
  | .when cs body => ListPlain cs ∧ SentencesPlain body
  | .whenElse cs body otherwise => ListPlain cs ∧ SentencesPlain body ∧ SentencesPlain otherwise
  | .loop cs body => ListPlain cs ∧ SentencesPlain body
termination_by structural s => s

/-- The sentences are plain. -/
def SentencesPlain : List Sentence → Prop
  | [] => True
  | s :: ss => s.Plain ∧ SentencesPlain ss
termination_by structural ss => ss

end

/-- The sentences of all definitions are plain. -/
def Document.Plain (d : Document) : Prop :=
  ∀ f ∈ d.definitions, SentencesPlain f.body

instance (v : Literal) : Decidable v.Plain :=
  match v with
  | .integer v => inferInstanceAs (Decidable (0 ≤ v.toInt))
  | .float _ => inferInstanceAs (Decidable (_ ∧ _))
  | .boolean _ => .isTrue trivial

instance (q : Part) : Decidable q.Plain :=
  match q with
  | .literal v => inferInstanceAs (Decidable v.Plain)
  | .word _ => .isTrue trivial
  | .list _ => .isTrue trivial

instance (cs : List Clause) : Decidable (ListPlain cs) :=
  inferInstanceAs (Decidable (∀ q ∈ clausesLeaves cs, q.Plain))

instance (cs : List Clause) : Decidable (StartsFreely cs) :=
  inferInstanceAs (Decidable (∀ w ∈ leadingWord? cs, _))

mutual

/-- Whether a sentence is plain. -/
def Sentence.decidePlain : (s : Sentence) → Decidable s.Plain
  | .declare _ _ _ => .isTrue trivial
  | .express cs => inferInstanceAs (Decidable (ListPlain cs ∧ StartsFreely cs))
  | .giveBack cs => inferInstanceAs (Decidable (ListPlain cs))
  | .when cs body => @instDecidableAnd (ListPlain cs) (SentencesPlain body) _ (decideSentencesPlain body)
  | .whenElse cs body otherwise =>
    @instDecidableAnd (ListPlain cs) (SentencesPlain body ∧ SentencesPlain otherwise) _
      (@instDecidableAnd _ _ (decideSentencesPlain body) (decideSentencesPlain otherwise))
  | .loop cs body => @instDecidableAnd (ListPlain cs) (SentencesPlain body) _ (decideSentencesPlain body)
termination_by structural s => s

/-- Whether sentences are plain. -/
def decideSentencesPlain : (ss : List Sentence) → Decidable (SentencesPlain ss)
  | [] => .isTrue trivial
  | s :: ss => @instDecidableAnd s.Plain (SentencesPlain ss) s.decidePlain (decideSentencesPlain ss)
termination_by structural ss => ss

end

instance (ss : List Sentence) : Decidable (SentencesPlain ss) :=
  decideSentencesPlain ss

instance (d : Document) : Decidable d.Plain :=
  inferInstanceAs (Decidable (∀ f ∈ d.definitions, SentencesPlain f.body))

/-! ## Lists that were read -/

section
variable {P : Part → Prop}

mutual

/-- What holds of the words and values of all tokens holds of those that they derive. -/
theorem Part.Derives.leaves : ∀ {p : Part} {ts : List Token}, p.Derives ts →
    (∀ t ∈ ts, t.Says P) →
      ∀ q ∈ p.leaves, P q
  | _, _, .word hk, ht => by
    rw [Part.leaves, List.forall_mem_singleton]
    exact (ht _ List.mem_cons_self).word hk
  | _, _, .literal hk, ht => by
    rw [Part.leaves, List.forall_mem_singleton]
    exact (ht _ List.mem_cons_self).literal _ hk
  | _, _, .list _ hcs _, ht =>
    hcs.leaves (List.forall_mem_append.1 (List.forall_mem_cons.1 ht).2).1

theorem PartsDerive.leaves : ∀ {ps : List Part} {ts : List Token}, PartsDerive ps ts →
    (∀ t ∈ ts, t.Says P) →
      ∀ q ∈ partsLeaves ps, P q
  | _, _, .nil, _ => by simp [partsLeaves]
  | _, _, .cons hp hps, ht => by
    obtain ⟨htp, htps⟩ := List.forall_mem_append.1 ht
    exact List.forall_mem_append.2 ⟨hp.leaves htp, hps.leaves htps⟩

theorem Clause.Derives.leaves : ∀ {c : Clause} {ts : List Token}, c.Derives ts →
    (∀ t ∈ ts, t.Says P) →
      ∀ q ∈ c.leaves, P q
  | _, _, .mk hps _, ht => hps.leaves ht

theorem OthersDerive.leaves : ∀ {cs : List Clause} {ts : List Token}, OthersDerive cs ts →
    (∀ t ∈ ts, t.Says P) →
      ∀ q ∈ clausesLeaves cs, P q
  | _, _, .nil, _ => by simp [clausesLeaves]
  | _, _, .plain _ _ hc hcs, ht => by
    obtain ⟨htc, htcs⟩ := List.forall_mem_append.1 (List.forall_mem_cons.1 ht).2
    exact List.forall_mem_append.2 ⟨hc.leaves htc, hcs.leaves htcs⟩
  | _, _, .joined _ _ hc hcs, ht => by
    obtain ⟨htc, htcs⟩ := List.forall_mem_append.1 (List.forall_mem_cons.1 (List.forall_mem_cons.1 ht).2).2
    exact List.forall_mem_append.2 ⟨hc.leaves htc, hcs.leaves htcs⟩

theorem ListDerives.leaves : ∀ {cs : List Clause} {ts : List Token}, ListDerives cs ts →
    (∀ t ∈ ts, t.Says P) →
      ∀ q ∈ clausesLeaves cs, P q
  | _, _, .mk hc hcs, ht => by
    obtain ⟨htc, htcs⟩ := List.forall_mem_append.1 ht
    exact List.forall_mem_append.2 ⟨hc.leaves htc, hcs.leaves htcs⟩

end

end

mutual

theorem Part.Derives.filled : ∀ {p : Part} {ts : List Token}, p.Derives ts → p.Filled
  | _, _, .word _ => trivial
  | _, _, .literal _ => trivial
  | _, _, .list _ hcs _ => hcs.filled

theorem PartsDerive.filled : ∀ {ps : List Part} {ts : List Token}, PartsDerive ps ts → PartsFilled ps
  | _, _, .nil => trivial
  | _, _, .cons hp hps => ⟨hp.filled, hps.filled⟩

theorem Clause.Derives.filled : ∀ {c : Clause} {ts : List Token}, c.Derives ts → c.Filled
  | _, _, .mk hps hne => ⟨hne, hps.filled⟩

theorem OthersDerive.filled : ∀ {cs : List Clause} {ts : List Token}, OthersDerive cs ts → ClausesFilled cs
  | _, _, .nil => trivial
  | _, _, .plain _ _ hc hcs => ⟨hc.filled, hcs.filled⟩
  | _, _, .joined _ _ hc hcs => ⟨hc.filled, hcs.filled⟩

theorem ListDerives.filled : ∀ {cs : List Clause} {ts : List Token}, ListDerives cs ts →
    cs ≠ [] ∧ ClausesFilled cs
  | _, _, .mk hc hcs => ⟨List.cons_ne_nil _ _, hc.filled, hcs.filled⟩

end

/-- A list as readers leave it: it has a clause, every clause has a part, and its
    pronouns have been resolved.  Its words and values can be written down. -/
structure ListRead (cs : List Clause) : Prop where
  nonempty : cs ≠ []
  filled : ClausesFilled cs
  settled : ClausesSettled true cs
  writable : ListWritable cs

theorem Part.Spelled.writable {q : Part} (h : q.Spelled) (hp : q.Plain) : q.Writable := by
  cases q with
  | word w => exact h
  | list cs => trivial
  | literal v =>
    cases v with
    | integer n => exact hp
    | float bits => exact ⟨hp.1, hp.2, h⟩
    | boolean b => trivial

theorem StoppedDerives.listRead {cs : List Clause} {ts : List Token} (h : StoppedDerives cs ts)
    (ht : ∀ t ∈ ts, t.Says Part.Spelled) (hp : ListPlain cs) : ListRead cs := by
  obtain ⟨hcs, -⟩ := h
  obtain ⟨hne, hfilled⟩ := resolveClauses_filled hcs.filled.1 hcs.filled.2
  have hspelled := forall_leaves_resolveClauses (hcs.leaves (List.forall_mem_append.1 ht).1)
  exact ⟨hne, hfilled, settled_resolveClauses _, fun q hq => (hspelled q hq).writable (hp q hq)⟩

/-! ## Lists read again -/

theorem faces_eq_cons {ts : List Token} {f : Face} {fs : List Face} (h : ts.map Token.face = f :: fs) :
    ∃ t us, ts = t :: us ∧ t.kind = f.kind ∧ t.text = f.text ∧ us.map Token.face = fs := by
  obtain ⟨t, us, rfl, rfl, hus⟩ := List.map_eq_cons_iff.1 h
  exact ⟨t, us, rfl, rfl, rfl, hus⟩

theorem face_singleton {ts : List Token} {f : Face} (h : ts.map Token.face = [f]) :
    ∃ t, ts = [t] ∧ t.kind = f.kind ∧ t.text = f.text := by
  obtain ⟨t, rfl, rfl⟩ := List.map_eq_singleton_iff.1 h
  exact ⟨t, rfl, rfl, rfl⟩

theorem word_first {ts : List Token} {w : String} {fs : List Face} (hw : IsWord w)
    (h : ts.map Token.face = wordFace w :: fs) :
    ∃ t us, ts = t :: us ∧ t.kind = .word ∧ t.text = w ∧ us.map Token.face = fs := by
  obtain ⟨t, us, rfl, hkind, htext, hus⟩ := faces_eq_cons h
  exact ⟨t, us, rfl, hkind.trans hw.kind, htext, hus⟩

theorem keyword_first {ts : List Token} {w : String} {fs : List Face} (keyword : String)
    (hw : Text.sameWord w keyword = true) (h : ts.map Token.face = wordFace w :: fs) :
    ∃ t us, ts = t :: us ∧ t.reads keyword = true ∧ us.map Token.face = fs := by
  obtain ⟨t, us, rfl, -, htext, hus⟩ := faces_eq_cons h
  refine ⟨t, us, rfl, ?_, hus⟩
  rw [Token.reads, htext]
  exact hw

mutual

/-- Tokens that look like those of a part derive it again. -/
theorem Part.rereads : ∀ (p : Part), p.Filled → (∀ q ∈ p.leaves, q.Writable) → ∀ {ts : List Token},
    ts.map Token.face = p.faces → ∃ q : Part, q.Derives ts ∧ q.unlocated = p.unlocated
  | .word w, _, hw, ts, hts => by
    have hword : IsWord w := hw (.word w) (by simp [Part.leaves])
    obtain ⟨t, us, rfl, hkind, rfl, hus⟩ := word_first hword hts
    obtain rfl := List.map_eq_nil_iff.1 hus
    exact ⟨.word t.text, .word hkind, rfl⟩
  | .literal v, _, _, ts, hts => by
    obtain ⟨t, rfl, hkind, -⟩ := face_singleton hts
    exact ⟨.literal v, .literal hkind, rfl⟩
  | .list cs, hf, hw, ts, hts => by
    obtain ⟨t, us, rfl, ht, -, hus⟩ := faces_eq_cons hts
    obtain ⟨us, vs, rfl, hinner, hvs⟩ := List.map_eq_append_iff.1 hus
    obtain ⟨u, rfl, hu, -⟩ := face_singleton hvs
    obtain ⟨ds, hds, he⟩ := clauses_reread cs hf.1 hf.2 hw hinner
    exact ⟨.list ds, .list ht hds hu, congrArg Part.list he⟩

theorem parts_reread : ∀ (ps : List Part), PartsFilled ps → (∀ q ∈ partsLeaves ps, q.Writable) →
    ∀ {ts : List Token}, ts.map Token.face = partsFaces ps →
      ∃ qs, PartsDerive qs ts ∧ partsUnlocated qs = partsUnlocated ps
  | [], _, _, ts, hts => by
    obtain rfl := List.map_eq_nil_iff.1 hts
    exact ⟨[], .nil, rfl⟩
  | p :: ps, hf, hw, ts, hts => by
    obtain ⟨hwp, hwps⟩ := List.forall_mem_append.1 hw
    obtain ⟨ts, us, rfl, hts, hus⟩ := List.map_eq_append_iff.1 hts
    obtain ⟨q, hq, he⟩ := p.rereads hf.1 hwp hts
    obtain ⟨qs, hqs, hes⟩ := parts_reread ps hf.2 hwps hus
    exact ⟨q :: qs, .cons hq hqs, congrArg₂ List.cons he hes⟩

theorem Clause.rereads : ∀ (c : Clause), c.Filled → (∀ q ∈ c.leaves, q.Writable) → ∀ {ts : List Token},
    ts.map Token.face = c.faces → ∃ d : Clause, d.Derives ts ∧ d.unlocated = c.unlocated
  | .mk l ps, hf, hw, ts, hts => by
    obtain ⟨qs, hqs, he⟩ := parts_reread ps hf.2 hw hts
    have hne : qs ≠ [] := by
      rintro rfl
      cases ps with
      | nil => exact hf.1 rfl
      | cons p ps => cases he
    exact ⟨.mk (firstLocation ts) qs, .mk hqs hne, congrArg (Clause.mk .start) he⟩

theorem clauses_reread : ∀ (cs : List Clause), cs ≠ [] → ClausesFilled cs →
    (∀ q ∈ clausesLeaves cs, q.Writable) → ∀ {ts : List Token}, ts.map Token.face = clausesFaces cs →
      ∃ ds, ListDerives ds ts ∧ clausesUnlocated ds = clausesUnlocated cs
  | [], hne, _, _, _, _ => absurd rfl hne
  | [c], _, hf, hw, ts, hts => by
    obtain ⟨d, hd, he⟩ := c.rereads hf.1 (List.forall_mem_append.1 hw).1 hts
    refine ⟨[d], ?_, congrArg (fun d => [d]) he⟩
    simpa using ListDerives.mk hd .nil
  | c :: d :: cs, _, hf, hw, ts, hts => by
    obtain ⟨hwc, hwcs⟩ := List.forall_mem_append.1 hw
    obtain ⟨ts, us, rfl, hfirst, hus⟩ := List.map_eq_append_iff.1 hts
    obtain ⟨t, us, rfl, ht, -, hus⟩ := faces_eq_cons hus
    obtain ⟨u, us, rfl, hog, hothers⟩ := keyword_first "og" (by decide +kernel) hus
    obtain ⟨c', hc, hec⟩ := c.rereads hf.1 hwc hfirst
    obtain ⟨ds, hds, heds⟩ := clauses_reread (d :: cs) (List.cons_ne_nil _ _) hf.2 hwcs hothers
    obtain ⟨hd, ho⟩ := hds
    exact ⟨_, .mk hc (.joined ht hog hd ho), congrArg₂ List.cons hec heds⟩

end

/-- **Tokens that look like those of a list that was read, up to a full stop, derive the
    list again.** -/
theorem ListRead.rereads {cs : List Clause} (h : ListRead cs) {ts : List Token}
    (hts : ts.map Token.face = clausesFaces cs ++ [dotFace]) :
    ∃ ds, StoppedDerives ds ts ∧ clausesUnlocated ds = clausesUnlocated cs := by
  obtain ⟨ts, us, rfl, hlist, hus⟩ := List.map_eq_append_iff.1 hts
  obtain ⟨dot, rfl, hdot, -⟩ := face_singleton hus
  obtain ⟨ds, hds, he⟩ := clauses_reread cs h.nonempty h.filled h.writable hlist
  refine ⟨resolveClauses ds, .mk hds hdot, ?_⟩
  rw [← unlocated_resolveClauses, he, unlocated_resolveClauses, resolveClauses_eq h.settled]

theorem ListRead.rereads_front {cs : List Clause} (h : ListRead cs) {ts : List Token} {fs : List Face}
    (hts : ts.map Token.face = clausesFaces cs ++ dotFace :: fs) :
    ∃ us vs ds, ts = us ++ vs ∧ StoppedDerives ds us ∧ clausesUnlocated ds = clausesUnlocated cs ∧
      vs.map Token.face = fs := by
  rw [List.append_cons] at hts
  obtain ⟨us, vs, rfl, hus, hvs⟩ := List.map_eq_append_iff.1 hts
  obtain ⟨ds, hds, he⟩ := h.rereads hus
  exact ⟨us, vs, ds, rfl, hds, he, hvs⟩

/-! ## How forms begin -/

/-- The first of the tokens reads as a keyword. -/
def facesRead (keyword : String) : List Face → Bool
  | [] => false
  | f :: _ => Text.sameWord f.text keyword

theorem nextReads_eq (keyword : String) (ts : List Token) :
    nextReads keyword ts = facesRead keyword (ts.map Token.face) := by
  cases ts <;> rfl

theorem lowercase_digit {c : Char} (h : isDigit c = true) : Text.lowercase c = [c] := by
  have hascii : ∀ n : Fin 128, isDigit (Char.ofNat n) = true →
      Text.lowercase (Char.ofNat n) = [Char.ofNat n] := by
    decide +kernel
  have hlt : c.toNat < 128 := by
    simp only [isDigit, Bool.and_eq_true, decide_eq_true_eq, Char.le_def] at h
    exact Nat.lt_of_le_of_lt (UInt32.le_iff_toNat_le.1 h.2) (by decide)
  have := hascii ⟨c.toNat, hlt⟩
  rw [Char.ofNat_toNat] at this
  exact this h

/-- No number is one of the leading words. -/
theorem number_ne_leader {text : String} (h : ∃ c cs, text.toList = c :: cs ∧ isDigit c = true) :
    ∀ leader ∈ leaders, Text.sameWord text leader = false := by
  obtain ⟨c, cs, htext, hc⟩ := h
  have hleaders : ∀ leader ∈ leaders,
      ((Text.lowercaseWord leader).head?.any fun d => !isDigit d) = true := by
    decide +kernel
  intro leader hl
  rw [Bool.eq_false_iff, Ne, Text.sameWord_iff, Text.lowercaseWord, htext, List.flatMap_cons,
    lowercase_digit hc]
  intro he
  have hfirst := hleaders leader hl
  rw [← he] at hfirst
  simp [hc] at hfirst

theorem Literal.Writable.ne_leader {v : Literal} (h : v.Writable) :
    ∀ leader ∈ leaders, Text.sameWord v.text leader = false := by
  cases v with
  | integer n => exact number_ne_leader (integerText_reads h).1.first
  | float bits =>
    obtain ⟨whole, fraction, htext, hw, -, -⟩ := floatText_reads h
    obtain ⟨d, ds, rfl, hd⟩ := hw.first
    exact number_ne_leader ⟨d, _, htext, hd⟩
  | boolean b => cases b <;> decide +kernel

/-- A list that was read and does not begin like another form does not look like it
    either. -/
theorem ListRead.faces_free {cs : List Clause} (h : ListRead cs) (hs : StartsFreely cs) (fs : List Face) :
    ∀ leader ∈ leaders, facesRead leader (clausesFaces cs ++ fs) = false := by
  obtain ⟨hne, hfilled, -, hw⟩ := h
  intro leader hl
  match cs, hne with
  | .mk l ps :: cs, _ =>
    match ps, hfilled.1.1 with
    | p :: ps, _ =>
      have hfirst : facesRead leader (clausesFaces (.mk l (p :: ps) :: cs) ++ fs) =
          facesRead leader (p.faces ++ fs) := by
        cases p <;> cases cs <;> rfl
      rw [hfirst]
      cases p with
      | word w => exact hs w rfl leader hl
      | literal v => exact Literal.Writable.ne_leader (hw (.literal v) (by simp [clausesLeaves, Clause.leaves, partsLeaves, Part.leaves])) leader hl
      | list ds =>
        have hparen : ∀ leader ∈ leaders, Text.sameWord "(" leader = false := by
          decide +kernel
        exact hparen leader hl

/-! ## Sentences read again -/

mutual

theorem Sentence.Derives.writable : ∀ {lax : Bool} {s : Sentence} {ts : List Token}, s.Derives lax ts →
    (∀ t ∈ ts, t.Says Part.Spelled) → s.Plain → s.Writable
  | _, _, _, .declare _ hname _ _ htype _, ht, _ => by
    simp only [List.forall_mem_cons, List.forall_mem_append] at ht
    exact ⟨ht.2.1.word hname, ht.2.2.2.2.1.word htype⟩
  | _, _, _, .when _ hc hb, ht, hp => by
    simp only [List.forall_mem_cons, List.forall_mem_append] at ht
    exact ⟨(hc.listRead ht.2.1 hp.1).writable, hb.writable ht.2.2 hp.2⟩
  | _, _, _, .whenElse _ hc hb _ _ hb₂, ht, hp => by
    simp only [List.forall_mem_cons, List.forall_mem_append] at ht
    exact ⟨(hc.listRead ht.2.1.1 hp.1).writable, hb.writable ht.2.1.2 hp.2.1, hb₂.writable ht.2.2.2.2 hp.2.2⟩
  | _, _, _, .loop _ hc hb, ht, hp => by
    simp only [List.forall_mem_cons, List.forall_mem_append] at ht
    exact ⟨(hc.listRead ht.2.1 hp.1).writable, hb.writable ht.2.2 hp.2⟩
  | _, _, _, .giveBack _ hc, ht, hp =>
    (hc.listRead (List.forall_mem_cons.1 ht).2 hp).writable
  | _, _, _, .express _ hc, ht, hp => (hc.listRead ht hp.1).writable

theorem SentencesDerive.writable : ∀ {lax : Bool} {ss : List Sentence} {ts : List Token},
    SentencesDerive lax ss ts → (∀ t ∈ ts, t.Says Part.Spelled) → SentencesPlain ss → SentencesWritable ss
  | _, _, _, .nil, _, _ => trivial
  | _, _, _, .cons hs hss _, ht, hp => by
    obtain ⟨hts, htss⟩ := List.forall_mem_append.1 ht
    exact ⟨hs.writable hts hp.1, hss.writable htss hp.2⟩

theorem BlockDerives.writable : ∀ {lax : Bool} {ss : List Sentence} {ts : List Token},
    BlockDerives lax ss ts → (∀ t ∈ ts, t.Says Part.Spelled) → SentencesPlain ss → SentencesWritable ss
  | _, _, _, .mk _ _ hss _ _, ht, hp => by
    simp only [List.forall_mem_cons, List.forall_mem_append] at ht
    exact hss.writable ht.2.2.1 hp

end

/-- A sentence does not look like the `ellers` of the one before it. -/
theorem Sentence.Derives.faces_ne_ellers {lax : Bool} {s : Sentence} {ts : List Token} (h : s.Derives lax ts)
    (ht : ∀ t ∈ ts, t.Says Part.Spelled) (hp : s.Plain) (fs : List Face) :
    facesRead "ellers" (s.faces ++ fs) = false := by
  have hword (w : String) (gs : List Face) (hw : Text.sameWord w "ellers" = false) :
      facesRead "ellers" (wordFace w :: gs) = false := hw
  cases h with
  | declare => exact hword "Lad" _ (by decide +kernel)
  | when => exact hword "Hvis" _ (by decide +kernel)
  | whenElse => exact hword "Hvis" _ (by decide +kernel)
  | loop => exact hword "Imens" _ (by decide +kernel)
  | giveBack => exact hword "Tilbagegiv" _ (by decide +kernel)
  | express _ hc =>
    rw [Sentence.faces, List.append_assoc]
    exact (hc.listRead ht hp.1).faces_free hp.2 _ "ellers" (by decide)

theorem SentencesDerive.faces_ne_ellers {lax : Bool} {ss : List Sentence} {ts : List Token}
    (h : SentencesDerive lax ss ts) (ht : ∀ t ∈ ts, t.Says Part.Spelled) (hp : SentencesPlain ss) :
    facesRead "ellers" (sentencesFaces ss) = false := by
  cases h with
  | nil => rfl
  | cons hs _ _ => exact hs.faces_ne_ellers (List.forall_mem_append.1 ht).1 hp.1 _

mutual

/-- Tokens that look like those of a sentence that was read derive it again. -/
theorem Sentence.Derives.rereads : ∀ {lax : Bool} {s : Sentence} {ts : List Token}, s.Derives lax ts →
    (∀ t ∈ ts, t.Says Part.Spelled) → s.Plain → ∀ {us : List Token}, us.map Token.face = s.faces →
      ∃ s' : Sentence, s'.Derives false us ∧ s'.unlocated = s.unlocated
  | _, _, _, .declare _ hname _ _ htype _, ht, _, us, hus => by
    simp only [List.forall_mem_cons, List.forall_mem_append] at ht
    obtain ⟨lad, us, rfl, hlad, hus⟩ := keyword_first "lad" (by decide +kernel) hus
    obtain ⟨name, us, rfl, hname, hnameText, hus⟩ := word_first (ht.2.1.word hname) hus
    obtain ⟨be, us, rfl, hbe, hus⟩ := keyword_first "være" (by decide +kernel) hus
    obtain ⟨article, us, rfl, harticle, hus⟩ := keyword_first "et" (by decide +kernel) hus
    obtain ⟨typeName, us, rfl, htype, htypeText, hus⟩ := word_first (ht.2.2.2.2.1.word htype) hus
    obtain ⟨dot, rfl, hdot, -⟩ := face_singleton hus
    refine ⟨_, .declare hlad hname hbe (.et harticle) htype hdot, ?_⟩
    rw [Sentence.unlocated, hnameText, htypeText]
    rfl
  | _, _, _, .when _ hc hb, ht, hp, us, hus => by
    simp only [List.forall_mem_cons, List.forall_mem_append] at ht
    obtain ⟨t, us, rfl, hhvis, hus⟩ := keyword_first "hvis" (by decide +kernel) hus
    obtain ⟨us, vs, ds, rfl, hds, hlist, hvs⟩ := (hc.listRead ht.2.1 hp.1).rereads_front hus
    obtain ⟨body', hbody, hb'⟩ := hb.rereads ht.2.2 hp.2 hvs
    exact ⟨.when ds body', .when hhvis hds hbody,
      congrArg₂ Sentence.when hlist hb'⟩
  | _, _, _, .whenElse _ hc hb _ _ hb₂, ht, hp, us, hus => by
    simp only [List.forall_mem_cons, List.forall_mem_append] at ht
    obtain ⟨t, us, rfl, hhvis, hus⟩ := keyword_first "hvis" (by decide +kernel) hus
    obtain ⟨us, vs, ds, rfl, hds, hlist, hvs⟩ := (hc.listRead ht.2.1.1 hp.1).rereads_front hus
    obtain ⟨vs, ws, rfl, hfirst, hws⟩ := List.map_eq_append_iff.1 hvs
    obtain ⟨u, ws, rfl, hellers, hws⟩ := keyword_first "ellers" (by decide +kernel) hws
    obtain ⟨dot, ws, rfl, hdot, -, hws⟩ := faces_eq_cons hws
    obtain ⟨body', hbody, hb'⟩ := hb.rereads ht.2.1.2 hp.2.1 hfirst
    obtain ⟨otherwise', hotherwise, ho'⟩ := hb₂.rereads ht.2.2.2.2 hp.2.2 hws
    refine ⟨.whenElse ds body' otherwise', ?_, ?_⟩
    · rw [← List.append_assoc]
      exact .whenElse hhvis hds hbody hellers hdot hotherwise
    · rw [Sentence.unlocated, hlist, hb', ho']
      rfl
  | _, _, _, .loop _ hc hb, ht, hp, us, hus => by
    simp only [List.forall_mem_cons, List.forall_mem_append] at ht
    obtain ⟨t, us, rfl, himens, hus⟩ := keyword_first "imens" (by decide +kernel) hus
    obtain ⟨us, vs, ds, rfl, hds, hlist, hvs⟩ := (hc.listRead ht.2.1 hp.1).rereads_front hus
    obtain ⟨body', hbody, hb'⟩ := hb.rereads ht.2.2 hp.2 hvs
    exact ⟨.loop ds body', .loop (.inl himens) hds hbody,
      congrArg₂ Sentence.loop hlist hb'⟩
  | _, _, _, .giveBack _ hc, ht, hp, us, hus => by
    obtain ⟨t, us, rfl, hgive, hus⟩ := keyword_first "tilbagegiv" (by decide +kernel) hus
    obtain ⟨ds, hds, he⟩ := (hc.listRead (List.forall_mem_cons.1 ht).2 hp).rereads hus
    exact ⟨.giveBack ds, .giveBack hgive hds, congrArg Sentence.giveBack he⟩
  | _, _, _, .express _ hc, ht, hp, us, hus => by
    have hread := hc.listRead ht hp.1
    obtain ⟨ds, hds, he⟩ := hread.rereads hus
    refine ⟨.express ds, .express (fun keyword hk => ?_) hds, congrArg Sentence.express he⟩
    have hleader : ∀ keyword ∈ openings, keyword ∈ leaders := by decide
    rw [nextReads_eq, hus]
    exact hread.faces_free hp.2 _ keyword (hleader keyword hk)

theorem SentencesDerive.rereads : ∀ {lax : Bool} {ss : List Sentence} {ts : List Token},
    SentencesDerive lax ss ts → (∀ t ∈ ts, t.Says Part.Spelled) → SentencesPlain ss →
      ∀ {us : List Token}, us.map Token.face = sentencesFaces ss →
        ∃ ss', SentencesDerive false ss' us ∧ sentencesUnlocated ss' = sentencesUnlocated ss
  | _, _, _, .nil, _, _, us, hus => by
    obtain rfl := List.map_eq_nil_iff.1 hus
    exact ⟨[], .nil, rfl⟩
  | _, _, _, .cons hs hss hw, ht, hp, us, hus => by
    obtain ⟨hts, htss⟩ := List.forall_mem_append.1 ht
    obtain ⟨us, vs, rfl, hus, hvs⟩ := List.map_eq_append_iff.1 hus
    obtain ⟨s', hs', he⟩ := hs.rereads hts hp.1 hus
    obtain ⟨ss', hss', hes⟩ := hss.rereads htss hp.2 hvs
    refine ⟨s' :: ss', .cons hs' hss' (fun _ => ?_), congrArg₂ List.cons he hes⟩
    rw [nextReads_eq, hvs]
    exact hss.faces_ne_ellers htss hp.2

theorem BlockDerives.rereads : ∀ {lax : Bool} {ss : List Sentence} {ts : List Token},
    BlockDerives lax ss ts → (∀ t ∈ ts, t.Says Part.Spelled) → SentencesPlain ss →
      ∀ {us : List Token}, us.map Token.face = blockFaces (sentencesFaces ss) →
        ∃ ss', BlockDerives false ss' us ∧ sentencesUnlocated ss' = sentencesUnlocated ss
  | _, _, _, .mk _ _ hss _ _, ht, hp, us, hus => by
    simp only [List.forall_mem_cons, List.forall_mem_append] at ht
    obtain ⟨t, us, rfl, hgreet, hus⟩ := keyword_first "goddag" (by decide +kernel) hus
    obtain ⟨dot, us, rfl, hdot, -, hus⟩ := faces_eq_cons hus
    obtain ⟨us, vs, rfl, hinner, hvs⟩ := List.map_eq_append_iff.1 hus
    obtain ⟨u, vs, rfl, hfarewell, hvs⟩ := keyword_first "farvel" (by decide +kernel) hvs
    obtain ⟨dot', rfl, hdot', -⟩ := face_singleton hvs
    obtain ⟨ss', hss', he⟩ := hss.rereads ht.2.2.1 hp hinner
    exact ⟨ss', .mk hgreet hdot hss' hfarewell hdot', he⟩

end

/-! ## Documents read again -/

theorem PatternPart.Derives.writable {p : PatternPart} {ts : List Token} (h : p.Derives ts)
    (ht : ∀ t ∈ ts, t.Says Part.Spelled) : p.Writable := by
  cases h with
  | word hk _ => exact (ht _ List.mem_cons_self).word hk
  | parameter _ hname _ htype _ =>
    simp only [List.forall_mem_cons] at ht
    exact ⟨ht.2.1.word hname, ht.2.2.2.1.word htype⟩

/-- Tokens that look like those of a position of a pattern derive it again. -/
theorem PatternPart.Derives.rereads {p : PatternPart} {ts us : List Token} (h : p.Derives ts)
    (ht : ∀ t ∈ ts, t.Says Part.Spelled) (hus : us.map Token.face = p.faces) : p.Derives us := by
  cases h with
  | word hk hr =>
    obtain ⟨u, us, rfl, hkind, htext, hus⟩ := word_first ((ht _ List.mem_cons_self).word hk) hus
    obtain rfl := List.map_eq_nil_iff.1 hus
    rw [Token.reads, ← htext] at hr
    rw [← htext]
    exact .word hkind hr
  | parameter _ hname _ htype _ =>
    simp only [List.forall_mem_cons] at ht
    obtain ⟨t, us, rfl, hopen, -, hus⟩ := faces_eq_cons hus
    obtain ⟨name, us, rfl, hname, hnameText, hus⟩ := word_first (ht.2.1.word hname) hus
    obtain ⟨som, us, rfl, hsom, hus⟩ := keyword_first "som" (by decide +kernel) hus
    obtain ⟨typeName, us, rfl, htype, htypeText, hus⟩ := word_first (ht.2.2.2.1.word htype) hus
    obtain ⟨u, rfl, hu, -⟩ := face_singleton hus
    rw [← hnameText, ← htypeText]
    exact .parameter hopen hname hsom htype hu

theorem PatternDerives.writable {ps : List PatternPart} {ts : List Token} (h : PatternDerives ps ts)
    (ht : ∀ t ∈ ts, t.Says Part.Spelled) : ∀ p ∈ ps, p.Writable := by
  induction h with
  | nil => simp
  | cons hp _ ih =>
    obtain ⟨htp, htps⟩ := List.forall_mem_append.1 ht
    exact List.forall_mem_cons.2 ⟨hp.writable htp, ih htps⟩

theorem PatternDerives.rereads {ps : List PatternPart} {ts us : List Token} (h : PatternDerives ps ts)
    (ht : ∀ t ∈ ts, t.Says Part.Spelled) (hus : us.map Token.face = ps.flatMap PatternPart.faces) :
    PatternDerives ps us := by
  induction h generalizing us with
  | nil =>
    obtain rfl := List.map_eq_nil_iff.1 hus
    exact .nil
  | cons hp _ ih =>
    obtain ⟨htp, htps⟩ := List.forall_mem_append.1 ht
    obtain ⟨us, vs, rfl, hfirst, hvs⟩ := List.map_eq_append_iff.1 hus
    exact .cons (hp.rereads htp hfirst) (ih htps hvs)

theorem Definition.Derives.writable {lax : Bool} {d : Definition} {ts : List Token} (h : d.Derives lax ts)
    (ht : ∀ t ∈ ts, t.Says Part.Spelled) (hp : SentencesPlain d.body) : d.Writable := by
  obtain ⟨-, -, hps, -, hname, -, hbody⟩ := h
  simp only [List.forall_mem_cons, List.forall_mem_append] at ht
  exact ⟨hps.writable ht.2.2.1, ht.2.2.2.2.1.word hname, hbody.writable ht.2.2.2.2.2.2 hp⟩

/-- Tokens that look like those of a definition that was read derive it again. -/
theorem Definition.Derives.rereads {lax : Bool} {d : Definition} {ts us : List Token} (h : d.Derives lax ts)
    (ht : ∀ t ∈ ts, t.Says Part.Spelled) (hp : SentencesPlain d.body) (hus : us.map Token.face = d.faces) :
    ∃ d' : Definition, d'.Derives false us ∧ d'.unlocated = d.unlocated := by
  obtain ⟨-, -, hps, -, hname, -, hbody⟩ := h
  simp only [List.forall_mem_cons, List.forall_mem_append] at ht
  obtain ⟨t, us, rfl, hoffentlig, hus⟩ := keyword_first "offentlig" (by decide +kernel) hus
  obtain ⟨u, us, rfl, hfunktion, hus⟩ := keyword_first "funktion" (by decide +kernel) hus
  obtain ⟨us, vs, rfl, hpattern, hvs⟩ := List.map_eq_append_iff.1 hus
  obtain ⟨give, vs, rfl, hgive, hvs⟩ := keyword_first "tilbagegiver" (by decide +kernel) hvs
  obtain ⟨name, vs, rfl, hname, hnameText, hvs⟩ := word_first (ht.2.2.2.2.1.word hname) hvs
  obtain ⟨dot, vs, rfl, hdot, -, hvs⟩ := faces_eq_cons hvs
  obtain ⟨body', hbody', he⟩ := hbody.rereads ht.2.2.2.2.2.2 hp hvs
  refine ⟨_, .mk hoffentlig hfunktion (hps.rereads ht.2.2.1 hpattern) hgive hname hdot hbody', ?_⟩
  rw [Definition.unlocated, hnameText, he]
  rfl

theorem DefinitionsDerive.writable {lax : Bool} {ds : List Definition} {ts : List Token}
    (h : DefinitionsDerive lax ds ts) (ht : ∀ t ∈ ts, t.Says Part.Spelled)
    (hp : ∀ d ∈ ds, SentencesPlain d.body) : ∀ d ∈ ds, d.Writable := by
  induction h with
  | nil => simp
  | cons hd _ ih =>
    obtain ⟨hpd, hpds⟩ := List.forall_mem_cons.1 hp
    obtain ⟨htd, htds⟩ := List.forall_mem_append.1 ht
    exact List.forall_mem_cons.2 ⟨hd.writable htd hpd, ih htds hpds⟩
  | skip _ _ _ _ ih => exact ih (List.forall_mem_cons.1 ht).2 hp

/-- Tokens that look like those of definitions that were read derive them again; no
    word is left between them. -/
theorem DefinitionsDerive.rereads {lax : Bool} {ds : List Definition} {ts us : List Token}
    (h : DefinitionsDerive lax ds ts) (ht : ∀ t ∈ ts, t.Says Part.Spelled)
    (hp : ∀ d ∈ ds, SentencesPlain d.body) (hus : us.map Token.face = ds.flatMap Definition.faces) :
    ∃ ds', DefinitionsDerive false ds' us ∧
      ds'.map Definition.unlocated = ds.map Definition.unlocated := by
  induction h generalizing us with
  | nil =>
    obtain rfl := List.map_eq_nil_iff.1 hus
    exact ⟨[], .nil, rfl⟩
  | cons hd _ ih =>
    obtain ⟨hpd, hpds⟩ := List.forall_mem_cons.1 hp
    obtain ⟨htd, htds⟩ := List.forall_mem_append.1 ht
    obtain ⟨us, vs, rfl, hfirst, hvs⟩ := List.map_eq_append_iff.1 hus
    obtain ⟨d', hd', he⟩ := hd.rereads htd hpd hfirst
    obtain ⟨ds', hds', hes⟩ := ih htds hpds hvs
    exact ⟨d' :: ds', .cons hd' hds', congrArg₂ List.cons he hes⟩
  | skip _ _ _ _ ih => exact ih (List.forall_mem_cons.1 ht).2 hp hus

/-- A text that is cut into tokens with these faces has these tokens before its end. -/
theorem Lexes.ofSource {source : String} {fs : List Face} (h : Lexes source.toList fs) :
    (Token.ofSource source).reports = [] ∧ (Token.ofSource source).beforeEnd.map Token.face = fs := by
  obtain ⟨htokens, hreports⟩ := h .start
  refine ⟨hreports, ?_⟩
  rw [beforeEnd_eq]
  exact htokens

/-- Sources that are read as the same document, but for places, have the same
    program. -/
theorem compile_ok_iff_of_unlocated {source source' : String}
    (h : (Analysis.ofSource source).readingReports = [])
    (h' : (Analysis.ofSource source').readingReports = [])
    (he : (Analysis.ofSource source').document.unlocated = (Analysis.ofSource source).document.unlocated)
    (p : Program) : compile source' = .ok p ↔ compile source = .ok p := by
  have hcompile (source : String) (h : (Analysis.ofSource source).readingReports = []) :
      compile source = .ok p ↔
        ((Tree.ofDocument true (Analysis.ofSource source).document.unlocated).reports.isEmpty = true ∧
          (Tree.ofDocument true (Analysis.ofSource source).document.unlocated).value.program = p) := by
    have htree : (Analysis.ofSource source).tree =
        (Tree.ofDocument (Analysis.ofSource source).readingReports.isEmpty
          (Analysis.ofSource source).document).value := rfl
    have hreports : (Analysis.ofSource source).reports = (Analysis.ofSource source).readingReports ++
        (Tree.ofDocument (Analysis.ofSource source).readingReports.isEmpty
          (Analysis.ofSource source).document).reports := rfl
    rw [Tree.ofDocument_unlocated, Checked.isEmpty_unlocated]
    rw [h] at htree hreports
    rw [compile, hreports, htree, List.nil_append, List.isEmpty_nil]
    change _ ↔ _ ∧ (Tree.ofDocument true _).value.unlocated.program = p
    rw [Tree.program_unlocated]
    split_ifs with hempty <;> simp [hempty]
  rw [hcompile source h, hcompile source' h', he]

/-- **Written and read again, a plain document is the same but for places**, and its
    program is the same. -/
theorem rereads_text (source : String) (h : (Analysis.ofSource source).readingReports = [])
    (hp : (Analysis.ofSource source).document.Plain) :
    (Analysis.ofSource (Analysis.ofSource source).document.text).readingReports = [] ∧
      (Analysis.ofSource (Analysis.ofSource source).document.text).document.unlocated =
        (Analysis.ofSource source).document.unlocated ∧
      ∀ p, compile (Analysis.ofSource source).document.text = .ok p ↔ compile source = .ok p := by
  have hreports : (Token.ofSource source).reports = [] := (List.append_eq_nil_iff.1 h).1
  obtain ⟨d, hd⟩ := (accepts_iff_derives source hreports).1.1 h
  obtain rfl := (accepts_iff_derives source hreports).2.1 d hd
  have hderives : DefinitionsDerive true (Analysis.ofSource source).document.definitions _ := hd
  have hspelled := tokens_spelled source
  have hwritable : (Analysis.ofSource source).document.Writable := hderives.writable hspelled hp
  obtain ⟨hreports', hfaces⟩ := (Document.lexes_text hwritable).ofSource
  obtain ⟨ds, hds, he⟩ := hderives.rereads hspelled hp hfaces
  obtain ⟨-, hread, haccepts⟩ := accepts_iff_derives _ hreports'
  have hderives' : (⟨ds⟩ : Document).Derives false _ := hds
  have hdocument := congrArg Document.unlocated (hread ⟨ds⟩ hderives'.lax)
  have hsame : (⟨ds⟩ : Document).unlocated = (Analysis.ofSource source).document.unlocated :=
    congrArg Document.mk he
  exact ⟨haccepts ⟨ds⟩ hderives', hdocument.trans hsame,
    compile_ok_iff_of_unlocated h (haccepts ⟨ds⟩ hderives') (hdocument.trans hsame)⟩

/-- A source with a pronoun, a number with a comma and a condition. -/
def rereadSource : String :=
  "Offentlig funktion start tilbagegiver heltal. Goddag. " ++
    "læg 1 sammen med 2, print det. Hvis sandt. Goddag. 0,5. Farvel. Farvel."

theorem rereads_text_sample :
    (Analysis.ofSource rereadSource).readingReports = [] ∧ (Analysis.ofSource rereadSource).document.Plain ∧
      (Analysis.ofSource (Analysis.ofSource rereadSource).document.text).readingReports = [] ∧
        (Analysis.ofSource (Analysis.ofSource rereadSource).document.text).document.unlocated =
          (Analysis.ofSource rereadSource).document.unlocated ∧
        ∀ p, compile (Analysis.ofSource rereadSource).document.text = .ok p ↔ compile rereadSource = .ok p := by
  have ⟨h, hp⟩ : (Analysis.ofSource rereadSource).readingReports = [] ∧
      (Analysis.ofSource rereadSource).document.Plain := by
    decide +kernel
  exact ⟨h, hp, rereads_text _ h hp⟩

end DanishProse

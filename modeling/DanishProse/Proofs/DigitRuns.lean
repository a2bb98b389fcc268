/-
  Numbers in digits are read exactly.

  * `IsRun cs`: digits, and commas with a digit right behind them; `LongestRun run text`: of
    all runs that a text begins with, this one takes in the others;
  * `DigitsRead run l ts rs`: what is made of a run that stands at a place, tokens or reports.
    Without a comma it is an integer, the value of the digits as 64 bits can hold it; with one
    comma a floating point number; with more it is reported and left out;
  * `digits_read`: wherever a piece of a source begins with a digit, it is the longest run from
    there on, and nothing is made of the source for it but this.
-/
import DanishProse.Proofs.Tiling
import DanishProse.Proofs.Writing

namespace DanishProse

/-! ## Runs -/

/-- Digits, and commas with a digit right behind them. -/
structure IsRun (cs : List Char) : Prop where
  chars : ∀ c ∈ cs, isDigit c = true ∨ c = ','
  commas : ∀ before behind, cs = before ++ ',' :: behind → ∃ d ds, behind = d :: ds ∧ isDigit d = true

/-- A run that a text begins with, and that all others begin that the text begins with. -/
structure LongestRun (run text : List Char) : Prop where
  isRun : IsRun run
  first : run <+: text
  longest : ∀ other, IsRun other → other <+: text → other <+: run

section
variable {c d : Char} {cs ds : List Char}

theorem IsRun.nil : IsRun [] where
  chars := by simp
  commas := by simp

theorem IsRun.tail (h : IsRun (c :: cs)) : IsRun cs where
  chars := fun d hd => h.chars d (List.mem_cons_of_mem c hd)
  commas := fun before behind hsplit => h.commas (c :: before) behind (by rw [hsplit, List.cons_append])

/-- In front of a run may stand a digit, or a comma if the run begins with a digit. -/
theorem IsRun.cons (hc : isDigit c = true ∨ c = ',' ∧ ∃ d ds, cs = d :: ds ∧ isDigit d = true) (h : IsRun cs) :
    IsRun (c :: cs) where
  chars := List.forall_mem_cons.2 ⟨hc.imp_right And.left, h.chars⟩
  commas := by
    rintro (_ | ⟨b, before⟩) behind hsplit
    · obtain ⟨rfl, rfl⟩ := List.cons_eq_cons.1 hsplit
      exact (hc.resolve_left (by decide)).2
    · exact h.commas before behind (List.cons_eq_cons.1 hsplit).2

/-- What a run begins with: a digit, or a comma in front of a digit. -/
theorem IsRun.head (h : IsRun (c :: cs)) :
    isDigit c = true ∨ c = ',' ∧ ∃ d ds, cs = d :: ds ∧ isDigit d = true := by
  rcases h.chars c List.mem_cons_self with hc | rfl
  · exact .inl hc
  · exact .inr ⟨rfl, h.commas [] cs rfl⟩

end

theorem numberReach_cons {c : Char} (hc : isDigit c = true) (cs : List Char) :
    numberReach (c :: cs) = numberReach cs + 1 := by
  have hfirst := @numberReach_append [c] cs (by simpa using hc)
  rw [List.singleton_append, List.length_singleton] at hfirst
  rw [hfirst, Nat.add_comm]

/-- As far as a number goes on, it is a run. -/
theorem isRun_take_numberReach (cs : List Char) : IsRun (cs.take (numberReach cs)) := by
  fun_induction numberReach cs with
  | case1 => exact .nil
  | case2 c hc => exact .cons (.inl hc) .nil
  | case3 c hc => exact .nil
  | case4 c d cs hc ih => exact .cons (.inl hc) ih
  | case5 c d cs hc hcomma ih =>
    rw [Bool.and_eq_true, beq_iff_eq] at hcomma
    refine .cons (.inr ⟨hcomma.1, d, cs.take (numberReach cs), ?_, hcomma.2⟩) ih
    rw [numberReach_cons hcomma.2, List.take_succ_cons]
  | case6 c d cs hc hcomma => exact .nil

/-- A number goes on as far as any run does. -/
theorem length_le_numberReach (cs : List Char) :
    ∀ other, IsRun other → other <+: cs → other.length ≤ numberReach cs := by
  fun_induction numberReach cs with
  | case1 =>
    rintro other - hother
    rw [List.prefix_nil.1 hother]
    exact Nat.le_refl 0
  | case2 c hc => exact fun other _ hother => hother.length_le
  | case3 c hc =>
    rintro (_ | ⟨e, other⟩) hrun hother
    · exact Nat.le_refl 0
    · obtain ⟨rfl, hnil⟩ := List.cons_prefix_cons.1 hother
      rw [List.prefix_nil.1 hnil] at hrun
      rcases hrun.head with he | ⟨-, d, ds, hd, -⟩
      · exact absurd he hc
      · cases hd
  | case4 c d cs hc ih =>
    rintro (_ | ⟨e, other⟩) hrun hother
    · exact Nat.zero_le _
    · exact Nat.succ_le_succ (ih other hrun.tail (List.cons_prefix_cons.1 hother).2)
  | case5 c d cs hc hcomma ih =>
    rintro (_ | ⟨e, other⟩) hrun hother
    · exact Nat.zero_le _
    · exact Nat.succ_le_succ (ih other hrun.tail (List.cons_prefix_cons.1 hother).2)
  | case6 c d cs hc hcomma =>
    rintro (_ | ⟨e, other⟩) hrun hother
    · exact Nat.le_refl 0
    · obtain ⟨rfl, hrest⟩ := List.cons_prefix_cons.1 hother
      rcases hrun.head with he | ⟨rfl, f, fs, rfl, hf⟩
      · exact absurd he hc
      · obtain ⟨rfl, -⟩ := List.cons_prefix_cons.1 hrest
        exact absurd (by simp [hf]) hcomma

/-- **A number goes on to the end of the longest run.** -/
theorem longestRun_numberReach (cs : List Char) : LongestRun (cs.take (numberReach cs)) cs where
  isRun := isRun_take_numberReach cs
  first := List.take_prefix _ _
  longest := fun other hrun hother =>
    List.prefix_take_iff.2 ⟨hother, length_le_numberReach cs other hrun hother⟩

/-! ## Values -/

/-- The value of digits as 64 bits can hold it, read with a sign. -/
theorem toInt_wrappedValue (digits : List Char) :
    (wrappedValue digits).toInt = Int.bmod (Nat.ofDigitChars 10 digits 0) (2 ^ 64) := by
  rw [wrappedValue_eq, naturalValue_eq, ← Int64.ofInt_eq_ofNat, Int64.toInt_ofInt]
  rfl

theorem bmod_of_lt {n : Nat} (h : n < 2 ^ 63) : Int.bmod n (2 ^ 64) = n := by
  rw [Int.bmod_eq_of_le] <;> omega

/-- What is made of a run that stands at a place: tokens and reports. -/
inductive DigitsRead (run : List Char) (l : Location) : List Token → List Report → Prop
  | integer {v : Int64} : run.count ',' = 0 →
      v.toInt = Int.bmod (Nat.ofDigitChars 10 run 0) (2 ^ 64) →
      (Nat.ofDigitChars 10 run 0 < 2 ^ 63 → v.toInt = Nat.ofDigitChars 10 run 0) →
      DigitsRead run l [⟨.literal (.integer v), String.ofList run, l⟩] []
  | float {whole fraction : List Char} {bits : UInt64} : run.count ',' = 1 →
      run = whole ++ ',' :: fraction →
      bits = Binary64.ofDecimal (Nat.ofDigitChars 10 (whole ++ fraction) 0) fraction.length →
      DigitsRead run l [⟨.literal (.float bits), String.ofList run, l⟩] []
  | rejected : 2 ≤ run.count ',' → DigitsRead run l [] [⟨.invalidFloat, l⟩]

/-- What literal a run is, by the number of its commas. -/
theorem numberLiteral?_cases (run : List Char) :
    (run.count ',' = 0 ∧ numberLiteral? run = some (.integer (wrappedValue run))) ∨
      (∃ whole fraction, run.count ',' = 1 ∧ run = whole ++ ',' :: fraction ∧ numberLiteral? run =
        some (.float (Binary64.ofDecimal (naturalValue (whole ++ fraction)) fraction.length))) ∨
      (2 ≤ run.count ',' ∧ numberLiteral? run = none) := by
  unfold numberLiteral?
  by_cases hcomma : ',' ∈ run
  · obtain ⟨whole, fraction, hrun, hwhole⟩ := List.eq_append_cons_of_mem hcomma
    have hfree : ∀ c ∈ whole, decide (c ≠ ',') = true :=
      fun c hc => decide_eq_true (ne_of_mem_of_not_mem hc hwhole)
    have hcount : run.count ',' = fraction.count ',' + 1 := by
      rw [hrun, List.count_append, List.count_cons_self, List.count_eq_zero.2 hwhole, Nat.zero_add]
    rw [hcount]
    right
    by_cases hmore : ',' ∈ fraction
    · have hpos := List.count_pos_iff.2 hmore
      refine .inr ⟨by omega, ?_⟩
      rw [hrun, List.takeWhile_append_of_pos hfree, List.dropWhile_append_of_pos hfree]
      simp [hmore]
    · refine .inl ⟨whole, fraction, by rw [List.count_eq_zero.2 hmore], hrun, ?_⟩
      rw [hrun, List.takeWhile_append_of_pos hfree, List.dropWhile_append_of_pos hfree]
      simp [hmore]
  · have hfree : ∀ c ∈ run, decide (c ≠ ',') = true :=
      fun c hc => decide_eq_true (ne_of_mem_of_not_mem hc hcomma)
    refine .inl ⟨List.count_eq_zero.2 hcomma, ?_⟩
    rw [List.takeWhile_eq_self_iff.2 hfree, List.dropWhile_eq_nil_iff.2 hfree]

theorem role_of_isDigit {c : Char} (hc : isDigit c = true) (cs : List Char) :
    role c cs =
      (numberLiteral? (c :: cs)).elim (.rejected .invalidFloat) fun value => .token (.literal value) := by
  obtain ⟨hblank, hword, hsign⟩ := not_word_of_isDigit hc
  simp only [role, hblank, hword, hsign, hc, Bool.false_eq_true, if_false, if_true]
  cases numberLiteral? (c :: cs) <;> rfl

/-- A piece that begins with a digit is read as the run that it is. -/
theorem digitsRead_of_isDigit {c : Char} {cs : List Char} (hc : isDigit c = true) (l : Location) :
    let p : Piece := ⟨role c cs, c :: cs, l⟩
    DigitsRead p.text l p.token?.toList p.report?.toList := by
  dsimp only [Piece.token?, Piece.report?]
  rw [role_of_isDigit hc]
  rcases numberLiteral?_cases (c :: cs) with ⟨hcount, hv⟩ | ⟨whole, fraction, hcount, hrun, hv⟩ | ⟨hcount, hv⟩
  · rw [hv]
    refine .integer hcount (toInt_wrappedValue _) fun hlt => ?_
    rw [toInt_wrappedValue, bmod_of_lt hlt]
  · rw [hv]
    refine .float hcount hrun ?_
    rw [naturalValue_eq]
  · rw [hv]
    exact .rejected hcount

/-! ## Sources -/

/-- Behind some of its pieces a text is scanned on at the place that they lead to. -/
theorem scan_eq_append {l : Location} {cs : List Char} {done todo : List Piece}
    (h : scan l cs = done ++ todo) :
    cs = done.flatMap Piece.text ++ todo.flatMap Piece.text ∧
      todo = scan (l.after (done.flatMap Piece.text)) (todo.flatMap Piece.text) := by
  refine ⟨by rw [← List.flatMap_append, ← h, text_scan], ?_⟩
  induction done generalizing l cs with
  | nil =>
    rw [List.nil_append] at h
    rw [← h, text_scan]
    rfl
  | cons p done ih =>
    cases cs with
    | nil =>
      rw [scan] at h
      cases h
    | cons c cs =>
      rw [scan] at h
      obtain ⟨rfl, hrest⟩ := List.cons_eq_cons.1 h
      rw [List.flatMap_cons, Location.after_append]
      exact ih hrest

/-- The first piece of a text that begins with a digit is the longest run there is. -/
theorem longestRun_of_scan {l : Location} {cs : List Char} {p : Piece} {todo : List Piece}
    (h : scan l cs = p :: todo) (hdigit : ∃ c ∈ p.text.head?, isDigit c = true) :
    LongestRun p.text cs ∧ p.location = l ∧ DigitsRead p.text l p.token?.toList p.report?.toList := by
  cases cs with
  | nil =>
    rw [scan] at h
    cases h
  | cons c cs =>
    rw [scan] at h
    obtain ⟨rfl, -⟩ := List.cons_eq_cons.1 h
    obtain ⟨d, hd, hc⟩ := hdigit
    obtain rfl := Option.some.inj hd
    obtain ⟨hblank, hword, -⟩ := not_word_of_isDigit hc
    have hreach : reach c cs = numberReach cs := by simp [reach, hblank, hword, hc]
    have hwhole : (c :: cs).take (numberReach (c :: cs)) = c :: cs.take (reach c cs) := by
      rw [hreach, numberReach_cons hc, List.take_succ_cons]
    refine ⟨?_, rfl, digitsRead_of_isDigit hc l⟩
    have hlongest := longestRun_numberReach (c :: cs)
    rwa [hwhole] at hlongest

theorem filterMap_between {α β : Type} (f : α → Option β) (xs : List α) (x : α) (ys : List α) :
    (xs ++ x :: ys).filterMap f = xs.filterMap f ++ (f x).toList ++ ys.filterMap f := by
  rw [List.filterMap_append, List.filterMap_cons]
  cases f x <;> simp

/-- **Numbers in digits are read exactly.**  Wherever a piece of a source begins with a digit, it
    is the longest run from there on, and the source is read on right behind it.  All that the
    tokenizer gives for it is what `DigitsRead` says: an integer, a floating point number, or one
    report at its place and no token. -/
theorem digits_read {source : String} {done todo : List Piece} {p : Piece}
    (hscan : scan .start source.toList = done ++ p :: todo)
    (hdigit : ∃ c ∈ p.text.head?, isDigit c = true) :
    let before := done.flatMap Piece.text
    let rest := todo.flatMap Piece.text
    source.toList = before ++ p.text ++ rest ∧
      p.location = .behind (String.ofList before) ∧
      LongestRun p.text (p.text ++ rest) ∧
      todo = scan (.behind (String.ofList (before ++ p.text))) rest ∧
      ∃ ts rs, DigitsRead p.text p.location ts rs ∧
        (Token.allOfSource source).tokens = done.filterMap Piece.token? ++ ts ++
          todo.filterMap Piece.token? ++ [⟨.endOfInput, "", .behind source⟩] ∧
        (Token.allOfSource source).reports = done.filterMap Piece.report? ++ rs ++
          todo.filterMap Piece.report? := by
  intro before rest
  obtain ⟨hsource, hnext⟩ := scan_eq_append hscan
  have hpassed : scan .start source.toList = (done ++ [p]) ++ todo := by
    rw [hscan, List.append_assoc, List.singleton_append]
  obtain ⟨-, hlater⟩ := scan_eq_append hpassed
  obtain ⟨hlongest, hplace, hread⟩ := longestRun_of_scan hnext.symm hdigit
  rw [Location.after_start] at hplace hread
  rw [← hplace] at hread
  refine ⟨by rw [hsource, List.flatMap_cons, ← List.append_assoc], hplace, hlongest, ?_, _, _, hread, ?_, ?_⟩
  · rw [List.flatMap_append, List.flatMap_singleton, Location.after_start] at hlater
    exact hlater
  · rw [Token.allOfSource, hscan, filterMap_between, Location.after_start, String.ofList_toList]
  · rw [Token.allOfSource, hscan]
    exact filterMap_between _ _ _ _

/-- A number past 64 bits with a comma behind it, and one with two commas. -/
def digitSource : String :=
  "18446744073709551621, 1,2,30."

/-- The number with two commas is reported where it begins, and the point behind it is the next
    token. -/
theorem digits_read_rejected :
    let done : List Piece := [⟨.token (.literal (.integer 5)), "18446744073709551621".toList, ⟨0, 0, 0⟩⟩,
      ⟨.token .comma, [','], ⟨20, 0, 20⟩⟩, ⟨.blank, [' '], ⟨21, 0, 21⟩⟩]
    let p : Piece := ⟨.rejected .invalidFloat, "1,2,30".toList, ⟨22, 0, 22⟩⟩
    let todo : List Piece := [⟨.token .dot, ['.'], ⟨28, 0, 28⟩⟩]
    (scan .start digitSource.toList = done ++ p :: todo ∧ ∃ c ∈ p.text.head?, isDigit c = true) ∧
      LongestRun p.text (p.text ++ ['.']) ∧ todo = scan (.behind "18446744073709551621, 1,2,30") ['.'] ∧
      ∃ ts rs, DigitsRead p.text ⟨22, 0, 22⟩ ts rs ∧
        (Token.allOfSource digitSource).tokens = done.filterMap Piece.token? ++ ts ++
          todo.filterMap Piece.token? ++ [⟨.endOfInput, "", .behind digitSource⟩] ∧
        (Token.allOfSource digitSource).reports = [] ++ rs ++ [] := by
  intro done p todo
  have hscan : scan .start digitSource.toList = done ++ p :: todo := by decide +kernel
  have hdigit : ∃ c ∈ p.text.head?, isDigit c = true := ⟨'1', rfl, by decide⟩
  obtain ⟨-, -, hlongest, hnext, hread⟩ := digits_read hscan hdigit
  exact ⟨⟨hscan, hdigit⟩, hlongest, hnext, hread⟩

end DanishProse

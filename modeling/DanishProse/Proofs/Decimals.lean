/-
  The texts of numbers are read back as these numbers.

  * What `onGrid` finds lies in the interval of the number (`onGrid_spec`,
    `holds_of_readsBack`), and on the last grid it finds the number itself
    (`onGrid_exact`), so the shortest decimal number is one that is rounded to it
    (`shortest_holds`);
  * a decimal number is written with its digits, and with a point where its places
    begin (`Decimal.text_whole`, `Decimal.text_fraction`);
  * `floatText_reads` and `integerText_reads`: the value of the digits of a literal is
    the literal.
-/
import Mathlib.Data.List.TakeWhile
import Mathlib.Tactic.Common
import DanishProse.Proofs.Rounding
import DanishProse.Token.Piece

namespace DanishProse.Binary64

/-! ## Grids -/

theorem zpow_eq_toNat (b : ℚ) (e : ℤ) : b ^ e = b ^ e.toNat / b ^ (-e).toNat := by
  rcases le_total 0 e with he | he
  · obtain ⟨n, rfl⟩ := Int.eq_ofNat_of_zero_le he
    simp
  · obtain ⟨n, hn⟩ := Int.eq_ofNat_of_zero_le (neg_nonneg.2 he)
    obtain rfl : e = -n := by omega
    simp

/-- A multiple of a power of ten that reads back lies in the interval. -/
theorem Interval.holds_of_scaled {i : Interval} {d : Nat} {e p : ℤ}
    (h : if i.closed then i.low * (2 ^ e.toNat * 10 ^ (-p).toNat) ≤ d * (2 ^ (-e).toNat * 10 ^ p.toNat) ∧
        d * (2 ^ (-e).toNat * 10 ^ p.toNat) ≤ i.high * (2 ^ e.toNat * 10 ^ (-p).toNat)
      else i.low * (2 ^ e.toNat * 10 ^ (-p).toNat) < d * (2 ^ (-e).toNat * 10 ^ p.toNat) ∧
        d * (2 ^ (-e).toNat * 10 ^ p.toNat) < i.high * (2 ^ e.toNat * 10 ^ (-p).toNat)) :
    i.Holds ((d : ℚ) * 10 ^ p / 2 ^ e) := by
  have hup : (0 : ℚ) < 2 ^ e.toNat * 10 ^ (-p).toNat := by positivity
  have hquot : (d : ℚ) * 10 ^ p / 2 ^ e =
      d * (2 ^ (-e).toNat * 10 ^ p.toNat) / (2 ^ e.toNat * 10 ^ (-p).toNat) := by
    rw [zpow_eq_toNat 10, zpow_eq_toNat 2]
    field_simp
  rw [Interval.Holds, hquot]
  split_ifs at h ⊢
  · rw [le_div_iff₀ hup, div_le_iff₀ hup]
    exact_mod_cast h
  · rw [lt_div_iff₀ hup, div_lt_iff₀ hup]
    exact_mod_cast h

/-- The test of `onGrid` for a multiple of a power of ten. -/
def Magnitude.readsBack (x : Magnitude) (power : Int) (d : Nat) : Bool :=
  let e := x.exponent - 2
  let up := Nat.pow 2 e.toNat * Nat.pow 10 (-power).toNat
  let unit := Nat.pow 2 (-e).toNat * Nat.pow 10 power.toNat
  let i := x.interval
  if i.closed then decide (i.low * up ≤ d * unit ∧ d * unit ≤ i.high * up)
  else decide (i.low * up < d * unit ∧ d * unit < i.high * up)

theorem holds_of_readsBack {x : Magnitude} {p : ℤ} {d : Nat} (h : x.readsBack p d = true) :
    x.interval.Holds ((d : ℚ) * 10 ^ p / 2 ^ (x.exponent - 2)) := by
  refine Interval.holds_of_scaled ?_
  rw [Magnitude.readsBack] at h
  split_ifs at h ⊢ <;> exact of_decide_eq_true h

/-- The multiple of a power of ten that is not above the number. -/
def Magnitude.below (x : Magnitude) (power : Int) : Nat :=
  let e := x.exponent - 2
  x.interval.value * (Nat.pow 2 e.toNat * Nat.pow 10 (-power).toNat) /
    (Nat.pow 2 (-e).toNat * Nat.pow 10 power.toNat)

theorem onGrid_eq (x : Magnitude) (p : ℤ) :
    ∃ near, (near = x.below p ∨ near = x.below p + 1) ∧
      x.onGrid p = match x.readsBack p (x.below p), x.readsBack p (x.below p + 1) with
        | true, true => some ⟨near, p⟩
        | true, false => some ⟨x.below p, p⟩
        | false, true => some ⟨x.below p + 1, p⟩
        | false, false => none := by
  refine ⟨_, ?_, rfl⟩
  split
  · exact .inr rfl
  · exact .inl rfl

/-- What is found on a grid reads back; nothing is found only if neither neighbour
    does. -/
theorem onGrid_spec (x : Magnitude) (p : ℤ) :
    (∃ d, x.onGrid p = some ⟨d, p⟩ ∧ x.readsBack p d = true) ∨
      (x.onGrid p = none ∧ x.readsBack p (x.below p) = false) := by
  obtain ⟨near, hnear, heq⟩ := onGrid_eq x p
  rw [heq]
  cases hb : x.readsBack p (x.below p) <;> cases ha : x.readsBack p (x.below p + 1)
  · exact .inr ⟨rfl, rfl⟩
  · exact .inl ⟨_, rfl, ha⟩
  · exact .inl ⟨_, rfl, hb⟩
  · exact .inl ⟨near, rfl, by rcases hnear with rfl | rfl <;> assumption⟩

theorem unit_dvd_up (e : ℤ) :
    2 ^ (-e).toNat * 10 ^ (min e 0).toNat ∣ 2 ^ e.toNat * 10 ^ (-min e 0).toNat := by
  rcases le_total 0 e with he | he
  · rw [min_eq_right he, show (-e).toNat = 0 by omega]
    exact one_dvd _
  · rw [min_eq_left he, show e.toNat = 0 by omega, pow_zero, pow_zero, mul_one, one_mul]
    exact pow_dvd_pow_of_dvd (by norm_num) _

/-- On the last grid the number itself is found. -/
theorem onGrid_exact {x : Magnitude} (hm : x.mantissa ≠ 0) : (x.onGrid x.exactPower).isSome = true := by
  have hb : x.readsBack x.exactPower (x.below x.exactPower) = true := by
    have hdvd := unit_dvd_up (x.exponent - 2)
    have hup : 0 < 2 ^ (x.exponent - 2).toNat * 10 ^ (-min (x.exponent - 2) 0).toNat := by positivity
    have hexact := Nat.div_mul_cancel (Dvd.dvd.mul_left hdvd x.interval.value)
    have hlow : x.interval.low < x.interval.value := by
      simp only [Magnitude.interval]
      split_ifs <;> omega
    have hhigh : x.interval.value < x.interval.high := by
      simp only [Magnitude.interval]
      omega
    rw [Magnitude.readsBack, Magnitude.below, Magnitude.exactPower]
    split_ifs <;> refine decide_eq_true ?_ <;> simp only [Nat.pow_eq] <;> rw [hexact]
    · exact ⟨Nat.mul_le_mul_right _ hlow.le, Nat.mul_le_mul_right _ hhigh.le⟩
    · exact ⟨Nat.mul_lt_mul_of_pos_right hlow hup, Nat.mul_lt_mul_of_pos_right hhigh hup⟩
  rcases onGrid_spec x x.exactPower with ⟨d, hd, -⟩ | ⟨-, hnot⟩
  · rw [hd]
    rfl
  · rw [hb] at hnot
    cases hnot

theorem exactPower_le_topPower (x : Magnitude) : x.exactPower ≤ x.topPower := by
  rw [Magnitude.exactPower, Magnitude.topPower]
  omega

/-- **The shortest decimal number is one that is rounded to the number.** -/
theorem shortest_holds {x : Magnitude} (hm : x.mantissa ≠ 0) :
    x.interval.Holds ((x.shortest.digits : ℚ) * 10 ^ x.shortest.power / 2 ^ (x.exponent - 2)) := by
  have hsome : ((List.range ((x.topPower - x.exactPower).toNat + 1)).findSome? fun (n : Nat) =>
      x.onGrid (x.topPower - (n : Int))).isSome = true := by
    rw [List.findSome?_isSome_iff]
    refine ⟨(x.topPower - x.exactPower).toNat, by simp, ?_⟩
    have := exactPower_le_topPower x
    rw [show x.topPower - ((x.topPower - x.exactPower).toNat : ℤ) = x.exactPower by omega]
    exact onGrid_exact hm
  obtain ⟨d, hd⟩ := Option.isSome_iff_exists.1 hsome
  obtain ⟨n, -, hgrid⟩ := List.exists_of_findSome?_eq_some hd
  have hshortest : x.shortest = d := by rw [Magnitude.shortest, hd, Option.getD_some]
  rcases onGrid_spec x (x.topPower - n) with ⟨d', hd', hreads⟩ | ⟨hnone, -⟩
  · obtain rfl := Option.some.inj (hd'.symm.trans hgrid)
    rw [hshortest]
    exact holds_of_readsBack hreads
  · rw [hnone] at hgrid
    cases hgrid

end DanishProse.Binary64

namespace DanishProse

/-! ## Digits -/

theorem naturalValue_eq (digits : List Char) : naturalValue digits = Nat.ofDigitChars 10 digits 0 := by
  simp only [naturalValue, Nat.ofDigitChars_eq_foldl, digitValue, Nat.mul_comm]

/-- All of these are digits, and there is one. -/
structure AreDigits (cs : List Char) : Prop where
  ne_nil : cs ≠ []
  digits : ∀ c ∈ cs, isDigit c = true

theorem AreDigits.first {cs : List Char} (h : AreDigits cs) : ∃ d ds, cs = d :: ds ∧ isDigit d = true := by
  obtain ⟨hne, hdigits⟩ := h
  cases cs with
  | nil => exact absurd rfl hne
  | cons d ds => exact ⟨d, ds, rfl, hdigits d List.mem_cons_self⟩

theorem isDigit_of_isDigit {c : Char} (h : c.isDigit = true) : isDigit c = true := by
  simpa [isDigit, Char.isDigit, Char.le_def] using h

theorem areDigits_toDigits (n : Nat) : AreDigits (Nat.toDigits 10 n) :=
  ⟨Nat.toDigits_ne_nil, fun _ hc =>
    isDigit_of_isDigit (Nat.isDigit_of_mem_toDigits (by decide) (by decide) hc)⟩

theorem areDigits_zeros {n : Nat} (h : 0 < n) : AreDigits (List.replicate n '0') := by
  refine ⟨by simp; omega, fun c hc => ?_⟩
  rw [(List.mem_replicate.1 hc).2]
  decide

/-- A single zero. -/
theorem areDigits_zero : AreDigits ['0'] :=
  areDigits_zeros Nat.one_pos

theorem AreDigits.append {cs ds : List Char} (hc : AreDigits cs) (hd : ∀ c ∈ ds, isDigit c = true) :
    AreDigits (cs ++ ds) :=
  ⟨by simp [hc.ne_nil], List.forall_mem_append.2 ⟨hc.digits, hd⟩⟩

/-- A decimal number without a fraction is written with its digits. -/
theorem Binary64.Decimal.text_whole {d : Decimal} (h : 0 ≤ d.power) :
    AreDigits d.text.toList ∧ naturalValue d.text.toList = d.digits * 10 ^ d.power.toNat := by
  rw [Decimal.text, if_pos h, String.toList_ofList]
  constructor
  · refine (areDigits_toDigits _).append fun c hc => ?_
    rw [(List.mem_replicate.1 hc).2]
    decide
  · rw [naturalValue_eq, Nat.ofDigitChars_append, Nat.ofDigitChars_replicate_zero,
      Nat.ofDigitChars_ten_toDigits, Nat.mul_comm]

/-- A decimal number with a fraction is written with its digits and a point. -/
theorem Binary64.Decimal.text_fraction {d : Decimal} (h : d.power < 0) :
    ∃ whole fraction, d.text.toList = whole ++ '.' :: fraction ∧ AreDigits whole ∧
      AreDigits fraction ∧ fraction.length = (-d.power).toNat ∧
        naturalValue (whole ++ fraction) = d.digits := by
  have hplaces : 0 < (-d.power).toNat := by omega
  have hvalue : Nat.ofDigitChars 10 (Nat.toDigits 10 d.digits) 0 = d.digits :=
    Nat.ofDigitChars_ten_toDigits
  have hdigits := areDigits_toDigits d.digits
  rw [Decimal.text, if_neg (by omega), String.toList_ofList]
  generalize (-d.power).toNat = places at *
  generalize Nat.toDigits 10 d.digits = digits at *
  rcases Nat.lt_or_ge places digits.length with hlt | hge
  · have htake : digits.take (digits.length - places) ≠ [] := by
      rw [Ne, List.take_eq_nil_iff, not_or]
      exact ⟨by omega, hdigits.ne_nil⟩
    rw [show places - digits.length = 0 by omega]
    refine ⟨digits.take (digits.length - places), digits.drop (digits.length - places), ?_, ⟨htake, ?_⟩,
      ⟨?_, ?_⟩, ?_, ?_⟩
    · simp [htake]
    · exact fun c hc => hdigits.digits c (List.mem_of_mem_take hc)
    · rw [Ne, List.drop_eq_nil_iff]
      omega
    · exact fun c hc => hdigits.digits c (List.mem_of_mem_drop hc)
    · rw [List.length_drop]
      omega
    · rw [List.take_append_drop, naturalValue_eq, hvalue]
  · rw [show digits.length - places = 0 by omega]
    refine ⟨['0'], List.replicate (places - digits.length) '0' ++ digits, by simp, areDigits_zero,
      ⟨by simp [hdigits.ne_nil], ?_⟩, ?_, ?_⟩
    · refine List.forall_mem_append.2 ⟨fun c hc => ?_, hdigits.digits⟩
      rw [(List.mem_replicate.1 hc).2]
      decide
    · simp
      omega
    · rw [naturalValue_eq, Nat.ofDigitChars_append, Nat.ofDigitChars_append,
        Nat.ofDigitChars_replicate_zero]
      exact hvalue

/-! ## Floating point numbers -/

theorem AreDigits.ne_sign {cs : List Char} (h : AreDigits cs) (sign : Char) (hs : isDigit sign = false) :
    sign ∉ cs := by
  intro hmem
  rw [h.digits sign hmem] at hs
  cases hs

/-- A decimal comma for the decimal point does not change digits. -/
theorem AreDigits.map_comma {cs : List Char} (h : AreDigits cs) :
    cs.map (fun c => if c = '.' then ',' else c) = cs := by
  refine (List.map_congr_left fun c hc => if_neg ?_).trans (List.map_id cs)
  rintro rfl
  exact h.ne_sign '.' (by decide) hc

/-- A floating point literal is written with a comma and at least one place. -/
theorem Literal.text_float {bits : UInt64} (digits : List Char)
    (h : (Binary64.text bits).toList.map (fun c => if c = '.' then ',' else c) = digits) :
    (Literal.float bits).text.toList = if digits.contains ',' then digits else digits ++ [',', '0'] := by
  rw [Literal.text, String.toList_ofList, h]

theorem Binary64.IsPlain.text {bits : UInt64} (h : IsPlain bits) :
    Binary64.text bits =
      if (magnitude bits).mantissa = 0 then "0" else (magnitude bits).shortest.text := by
  rw [Binary64.text, h.notNaN, h.nonnegative, h.finite]
  simp

/-- The bits of a number without a mantissa. -/
theorem Binary64.IsPlain.eq_zero {bits : UInt64} (h : IsPlain bits) (hm : (magnitude bits).mantissa = 0) :
    bits = 0 := by
  rw [← assembled_magnitude h, hm]
  rfl

/-- **The text of a floating point number is its digits, with a comma where its places
    begin, and these digits are rounded to the number.** -/
theorem floatText_reads {bits : UInt64} (h : Binary64.IsPlain bits) :
    ∃ whole fraction, (Literal.float bits).text.toList = whole ++ ',' :: fraction ∧
      AreDigits whole ∧ AreDigits fraction ∧
        Binary64.ofDecimal (naturalValue (whole ++ fraction)) fraction.length = bits := by
  have htext := h.text
  by_cases hm : (Binary64.magnitude bits).mantissa = 0
  · rw [if_pos hm] at htext
    refine ⟨['0'], ['0'], ?_, areDigits_zero, areDigits_zero, ?_⟩
    · rw [Literal.text_float ['0'] (by rw [htext]; rfl)]
      rfl
    · rw [h.eq_zero hm]
      rfl
  · rw [if_neg hm] at htext
    have hholds := Binary64.shortest_holds hm
    generalize (Binary64.magnitude bits).shortest = d at *
    rcases lt_or_ge d.power 0 with hneg | hnonneg
    · obtain ⟨whole, fraction, htoList, hw, hf, hlength, hvalue⟩ := d.text_fraction hneg
      refine ⟨whole, fraction, ?_, hw, hf, ?_⟩
      · rw [Literal.text_float (whole ++ ',' :: fraction)]
        · simp
        · rw [htext, htoList, List.map_append, List.map_cons, hw.map_comma, hf.map_comma]
          rfl
      · rw [hvalue, hlength]
        refine Binary64.nearest_of_holds h hm (Nat.pow_pos (by decide)) ?_
        have hpower : (d.digits : ℚ) / ↑(Nat.pow 10 (-d.power).toNat) = d.digits * 10 ^ d.power := by
          rw [Binary64.zpow_eq_toNat 10 d.power, show d.power.toNat = 0 by omega, Nat.pow_eq]
          push_cast
          ring
        rwa [hpower]
    · obtain ⟨hw, hvalue⟩ := d.text_whole hnonneg
      refine ⟨d.text.toList, ['0'], ?_, hw, areDigits_zero, ?_⟩
      · rw [Literal.text_float d.text.toList (by rw [htext, hw.map_comma])]
        have := hw.ne_sign ',' (by decide)
        simp [this]
      · refine Binary64.nearest_of_holds h hm (by decide) ?_
        have hpower : (naturalValue (d.text.toList ++ ['0']) : ℚ) / ↑(Nat.pow 10 ['0'].length) =
            d.digits * 10 ^ d.power := by
          rw [naturalValue_eq, Nat.ofDigitChars_append, ← naturalValue_eq, hvalue,
            Binary64.zpow_eq_toNat 10 d.power, show (-d.power).toNat = 0 by omega]
          simp [Nat.ofDigitChars_eq_foldl]
        rwa [hpower]

/-! ## Integers -/

theorem wrappedValue_eq (digits : List Char) : wrappedValue digits = Int64.ofNat (naturalValue digits) := by
  have hfrom (n : Nat) : digits.foldl (fun value d => value * 10 + Int64.ofNat (digitValue d)) (Int64.ofNat n) =
      Int64.ofNat (digits.foldl (fun value d => value * 10 + digitValue d) n) := by
    induction digits generalizing n with
    | nil => rfl
    | cons d ds ih =>
      rw [List.foldl_cons, List.foldl_cons, ← ih, Int64.ofNat_add, Int64.ofNat_mul]
      rfl
  exact hfrom 0

/-- **The text of a natural number is its digits.** -/
theorem integerText_reads {v : Int64} (h : 0 ≤ v.toInt) :
    AreDigits (Literal.integer v).text.toList ∧ wrappedValue (Literal.integer v).text.toList = v := by
  obtain ⟨n, hn⟩ := Int.eq_ofNat_of_zero_le h
  have htext : (Literal.integer v).text.toList = Nat.toDigits 10 n := by
    rw [Literal.text, hn]
    exact Nat.toList_repr
  rw [htext]
  refine ⟨areDigits_toDigits n, ?_⟩
  rw [wrappedValue_eq, naturalValue_eq, Nat.ofDigitChars_ten_toDigits, ← Int64.ofInt_eq_ofNat, ← hn,
    Int64.ofInt_toInt]

/-! ## Number literals -/

theorem AreDigits.ne_comma {cs : List Char} (h : AreDigits cs) : ∀ c ∈ cs, decide (c ≠ ',') = true := by
  intro c hc
  refine decide_eq_true ?_
  rintro rfl
  exact h.ne_sign ',' (by decide) hc

theorem numberLiteral?_integer {cs : List Char} (h : AreDigits cs) :
    numberLiteral? cs = some (.integer (wrappedValue cs)) := by
  rw [numberLiteral?, List.takeWhile_eq_self_iff.2 h.ne_comma, List.dropWhile_eq_nil_iff.2 h.ne_comma]

theorem numberLiteral?_float {cs ds : List Char} (h : AreDigits cs) (hd : AreDigits ds) :
    numberLiteral? (cs ++ ',' :: ds) =
      some (.float (Binary64.ofDecimal (naturalValue (cs ++ ds)) ds.length)) := by
  rw [numberLiteral?, List.takeWhile_append_of_pos h.ne_comma, List.dropWhile_append_of_pos h.ne_comma]
  simp [hd.ne_sign ',' (by decide)]

end DanishProse

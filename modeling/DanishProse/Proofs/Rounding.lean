/-
  Numbers near a floating point number are rounded to it.

  * `IsExponent v e`: fractions of `2 ^ e` are those that a positive number `v` is
    rounded to.  There is one such `e` (`IsExponent.unique`), and `nearest` finds it
    (`nearest_eq`);
  * `Interval.Holds`: a number lies between the ends of an interval;
  * `nearest_of_holds`: a quotient in the interval of a floating point number is
    rounded to the bits of that number.
-/
import Mathlib.Algebra.Order.Field.Power
import Mathlib.Data.Rat.Cast.Order
import Mathlib.Tactic.FieldSimp
import Mathlib.Tactic.Linarith
import Mathlib.Tactic.NormNum
import Mathlib.Tactic.Positivity
import Mathlib.Tactic.Ring
import DanishProse.Decimal.Shortest

namespace DanishProse.Binary64

/-! ## Rounding to a natural number -/

/-- The natural number that is nearest, even in case of a tie, is the one that a
    quotient is rounded to. -/
theorem roundToEven_eq {a b m : Nat} (hb : 0 < b) (hlow : 2 * m * b ≤ 2 * a + b)
    (hhigh : 2 * a ≤ 2 * m * b + b) (htie : m % 2 = 1 → 2 * m * b < 2 * a + b ∧ 2 * a < 2 * m * b + b) :
    roundToEven a b = m := by
  have ha := Nat.div_add_mod a b
  have hr := Nat.mod_lt a hb
  rw [roundToEven]
  generalize a / b = q at *
  generalize a % b = r at *
  have hqm : q ≤ m := by
    by_contra hlt
    have : (m + 1) * b ≤ b * q := by
      rw [Nat.mul_comm b q]
      exact Nat.mul_le_mul_right b (by omega)
    nlinarith
  have hmq : m ≤ q + 1 := by
    by_contra hlt
    have : (q + 2) * b ≤ m * b := Nat.mul_le_mul_right b (by omega)
    nlinarith
  obtain rfl | rfl : m = q ∨ m = q + 1 := by omega
  · have hmb : 2 * m * b = 2 * (b * m) := by ring
    rw [hmb] at hlow hhigh htie
    split_ifs <;> omega
  · have hmb : 2 * (q + 1) * b = 2 * (b * q) + 2 * b := by ring
    rw [hmb] at hlow hhigh htie
    split_ifs <;> omega

/-! ## The exponent of a number -/

/-- A number of the form `m · 2 ^ e` with a mantissa of fifty-three bits, or of fewer
    if `e` is as small as it can be, is nearest to `v`. -/
structure IsExponent (v : ℚ) (e : ℤ) : Prop where
  least : -1074 ≤ e
  lt : v / 2 ^ e < 2 ^ 53
  le : -1074 < e → 2 ^ 52 ≤ v / 2 ^ e

theorem IsExponent.le_of {v : ℚ} {e f : ℤ} (he : IsExponent v e) (hf : IsExponent v f) : f ≤ e := by
  by_contra hlt
  have hef : e + 1 ≤ f := by omega
  have h52 := hf.le (by have := he.least; omega)
  have h53 := he.lt
  have hpow : (2 : ℚ) ^ e * 2 ≤ 2 ^ f := by
    rw [← zpow_add_one₀ (by norm_num)]
    exact zpow_le_zpow_right₀ (by norm_num) hef
  have he0 : (0 : ℚ) < 2 ^ e := zpow_pos (by norm_num) e
  have hf0 : (0 : ℚ) < 2 ^ f := zpow_pos (by norm_num) f
  rw [le_div_iff₀ hf0] at h52
  rw [div_lt_iff₀ he0] at h53
  nlinarith

theorem IsExponent.unique {v : ℚ} {e f : ℤ} (he : IsExponent v e) (hf : IsExponent v f) : e = f :=
  le_antisymm (hf.le_of he) (he.le_of hf)

/-- The quotient, as a fraction of naturals. -/
theorem scaled_eq (num den : Nat) (e : ℤ) :
    ((scaled num den e).1 : ℚ) / (scaled num den e).2 = num / den / 2 ^ e := by
  unfold scaled
  rcases le_total 0 e with he | he
  · obtain ⟨n, rfl⟩ := Int.eq_ofNat_of_zero_le he
    simp [div_div]
  · obtain ⟨n, hn⟩ := Int.eq_ofNat_of_zero_le (neg_nonneg.2 he)
    obtain rfl : e = -n := by omega
    simp
    ring

theorem scaled_pos {den : Nat} (num : Nat) (h : 0 < den) (e : ℤ) : 0 < (scaled num den e).2 :=
  Nat.mul_pos h (Nat.pow_pos (by decide))

/-- The power of two that a number is at least as large as, and the next one, which
    it is not. -/
theorem log2_bounds {n : Nat} (h : n ≠ 0) :
    (2 : ℚ) ^ (n.log2 : ℤ) ≤ n ∧ (n : ℚ) < 2 ^ ((n.log2 : ℤ) + 1) := by
  constructor
  · rw [zpow_natCast]
    exact_mod_cast Nat.log2_self_le h
  · rw [← Nat.cast_one, ← Nat.cast_add, zpow_natCast]
    exact_mod_cast Nat.lt_log2_self

/-- The first guess for the exponent is right or one too small. -/
theorem guess_bounds {num den : Nat} (hnum : num ≠ 0) (hden : den ≠ 0) :
    2 ^ 52 ≤ (num : ℚ) / den / 2 ^ ((num.log2 : ℤ) - den.log2 - 53) ∧
      (num : ℚ) / den / 2 ^ ((num.log2 : ℤ) - den.log2 - 53) < 2 ^ 54 := by
  obtain ⟨hn, hn'⟩ := log2_bounds hnum
  obtain ⟨hd, hd'⟩ := log2_bounds hden
  have hden0 : (0 : ℚ) < den := by positivity
  generalize (num.log2 : ℤ) = l at *
  generalize (den.log2 : ℤ) = d at *
  have hg0 : (0 : ℚ) < 2 ^ (l - d - 53) := by positivity
  rw [div_div, le_div_iff₀ (by positivity), div_lt_iff₀ (by positivity)]
  constructor
  · calc (2 : ℚ) ^ 52 * (den * 2 ^ (l - d - 53))
        ≤ 2 ^ 52 * (2 ^ (d + 1) * 2 ^ (l - d - 53)) := by gcongr
      _ = 2 ^ l := by
        rw [← zpow_natCast, ← zpow_add₀ (by norm_num), ← zpow_add₀ (by norm_num)]
        congr 1
        push_cast
        ring
      _ ≤ num := hn
  · calc (num : ℚ) < 2 ^ (l + 1) := hn'
      _ = 2 ^ 54 * (2 ^ d * 2 ^ (l - d - 53)) := by
        rw [← zpow_natCast, ← zpow_add₀ (by norm_num), ← zpow_add₀ (by norm_num)]
        congr 1
        push_cast
        ring
      _ ≤ 2 ^ 54 * (den * 2 ^ (l - d - 53)) := by gcongr

/-- The exponent that `nearest` takes. -/
def foundExponent (num den : Nat) : Int :=
  let guess : Int := max ((Nat.log2 num : Int) - Nat.log2 den - 53) (-1074)
  if 2 * leastFull ≤ (scaled num den guess).1 / (scaled num den guess).2 then guess + 1 else guess

theorem isExponent_found {num den : Nat} (hnum : num ≠ 0) (hden : 0 < den) :
    IsExponent ((num : ℚ) / den) (foundExponent num den) := by
  obtain ⟨hlow, hhigh⟩ := guess_bounds hnum hden.ne'
  rw [foundExponent]
  generalize (num.log2 : ℤ) - den.log2 - 53 = g at *
  set guess := max g (-1074) with hguess
  have hgg : g ≤ guess := le_max_left _ _
  have hv : (0 : ℚ) ≤ num / den := by positivity
  have hhigh' : (num : ℚ) / den / 2 ^ guess < 2 ^ 54 :=
    lt_of_le_of_lt (div_le_div_of_nonneg_left hv (by positivity)
      (zpow_le_zpow_right₀ (by norm_num) hgg)) hhigh
  have hfloor : 2 * leastFull ≤ (scaled num den guess).1 / (scaled num den guess).2 ↔
      2 ^ 53 ≤ (num : ℚ) / den / 2 ^ guess := by
    rw [Nat.le_div_iff_mul_le (scaled_pos num hden guess), ← scaled_eq,
      le_div_iff₀ (by exact_mod_cast scaled_pos num hden guess), leastFull]
    norm_cast
  split_ifs with h
  · rw [hfloor] at h
    have hhalf : (num : ℚ) / den / 2 ^ (guess + 1) = num / den / 2 ^ guess / 2 := by
      rw [zpow_add_one₀ (by norm_num), div_div, div_div, div_div]
    refine ⟨by omega, ?_, fun _ => ?_⟩ <;> rw [hhalf]
    · rw [div_lt_iff₀ (by norm_num)]
      exact hhigh'.trans_eq (by norm_num)
    · rw [le_div_iff₀ (by norm_num)]
      exact le_trans (by norm_num) h
  · rw [hfloor, not_le] at h
    refine ⟨le_max_right _ _, h, fun hlt => ?_⟩
    have : guess = g := by omega
    rwa [this]

/-- The bits of a mantissa with an exponent. -/
def assembled (m : Nat) (e : Int) : UInt64 :=
  if m < leastFull then m.toUInt64
  else
    let field := (e + 1075).toNat
    if 2047 ≤ field then infinity
    else (field * leastFull + (m - leastFull)).toUInt64

theorem nearest_eq {num den : Nat} (hnum : num ≠ 0) (hden : 0 < den) {e : Int}
    (he : IsExponent ((num : ℚ) / den) e) :
    nearest num den = assembled (roundToEven (scaled num den e).1 (scaled num den e).2) e := by
  rw [← (isExponent_found hnum hden).unique he, nearest, if_neg hnum]
  rfl

/-! ## The parts of the bits -/

theorem exponentField_eq (bits : UInt64) : exponentField bits = bits.toNat / 2 ^ 52 % 2 ^ 11 := by
  rw [exponentField, UInt64.toNat_and, UInt64.toNat_shiftRight, ← Nat.and_two_pow_sub_one_eq_mod,
    ← Nat.shiftRight_eq_div_pow]
  rfl

theorem fractionField_eq (bits : UInt64) : fractionField bits = bits.toNat % 2 ^ 52 := by
  rw [fractionField, UInt64.toNat_and, ← Nat.and_two_pow_sub_one_eq_mod]
  rfl

theorem isNegative_eq (bits : UInt64) : isNegative bits = decide (2 ^ 63 ≤ bits.toNat) := by
  rw [isNegative, Bool.eq_iff_iff, beq_iff_eq, ← UInt64.toNat_inj]
  simp [Nat.shiftRight_eq_div_pow]
  have := bits.toNat_lt
  omega

/-- Not infinite, not a number that is none, and not below zero. -/
structure IsPlain (bits : UInt64) : Prop where
  notNaN : isNaN bits = false
  finite : isInfinite bits = false
  nonnegative : isNegative bits = false

theorem IsPlain.lt {bits : UInt64} (h : IsPlain bits) : bits.toNat < 2047 * 2 ^ 52 := by
  obtain ⟨hn, hi, hs⟩ := h
  rw [isNegative_eq] at hs
  rw [isNaN, exponentField_eq, fractionField_eq] at hn
  rw [isInfinite, exponentField_eq, fractionField_eq] at hi
  simp at hn hi hs
  omega

theorem toUInt64_eq {bits : UInt64} {n : Nat} (h : n = bits.toNat) : n.toUInt64 = bits := by
  rw [h]
  exact UInt64.ofNat_toNat

/-- A number is put together of its mantissa and its exponent. -/
theorem assembled_magnitude {bits : UInt64} (h : IsPlain bits) :
    assembled (magnitude bits).mantissa (magnitude bits).exponent = bits := by
  have hlt := h.lt
  have hfull : leastFull = 2 ^ 52 := rfl
  rw [magnitude, exponentField_eq, fractionField_eq, assembled, hfull]
  dsimp only
  by_cases he : bits.toNat / 2 ^ 52 % 2 ^ 11 = 0
  · rw [if_pos he, if_pos (Nat.mod_lt _ (by decide))]
    exact toUInt64_eq (by dsimp only; omega)
  · have hfield : ((bits.toNat / 2 ^ 52 % 2 ^ 11 : Nat) - 1075 + 1075 : Int).toNat =
        bits.toNat / 2 ^ 52 % 2 ^ 11 := by omega
    rw [if_neg he, if_neg (by dsimp only; omega)]
    dsimp only
    rw [hfield, if_neg (by omega)]
    exact toUInt64_eq (by omega)

/-! ## Intervals -/

/-- A number lies in the interval. -/
def Interval.Holds (i : Interval) (w : ℚ) : Prop :=
  if i.closed then i.low ≤ w ∧ w ≤ i.high else i.low < w ∧ w < i.high

theorem Interval.Holds.bounds {i : Interval} {w : ℚ} (h : i.Holds w) : i.low ≤ w ∧ w ≤ i.high := by
  rw [Interval.Holds] at h
  split_ifs at h
  · exact h
  · exact ⟨h.1.le, h.2.le⟩

theorem Interval.Holds.strict {i : Interval} {w : ℚ} (h : i.Holds w) (hi : i.closed = false) :
    i.low < w ∧ w < i.high := by
  rwa [Interval.Holds, hi, if_neg (by decide)] at h

/-- The ends of an interval: a half of the unit on both sides, but a quarter below a
    power of two. -/
theorem Magnitude.interval_ends (x : Magnitude) (hm : x.mantissa ≠ 0) :
    (x.interval.low : ℚ) = 4 * x.mantissa - (if x.atPowerOfTwo then 1 else 2) ∧
      (x.interval.high : ℚ) = 4 * x.mantissa + 2 := by
  rw [Magnitude.interval]
  constructor
  · dsimp only
    rw [Nat.cast_sub (by split_ifs <;> omega)]
    split_ifs <;> push_cast <;> ring
  · push_cast
    ring

/-- The mantissa of a finite number has at most fifty-three bits, and fewer only at
    the least exponent. -/
structure Magnitude.IsFinite (x : Magnitude) : Prop where
  mantissa_lt : x.mantissa < 2 ^ 53
  least : -1074 ≤ x.exponent
  greatest : x.exponent ≤ 971
  subnormal : x.mantissa < 2 ^ 52 → x.exponent = -1074
  atPowerOfTwo : x.atPowerOfTwo = true ↔ x.mantissa = 2 ^ 52 ∧ -1074 < x.exponent

theorem isFinite_magnitude {bits : UInt64} (h : IsPlain bits) : (magnitude bits).IsFinite := by
  have hlt := h.lt
  have hfull : leastFull = 2 ^ 52 := rfl
  rw [magnitude, exponentField_eq, fractionField_eq, hfull]
  by_cases he : bits.toNat / 2 ^ 52 % 2 ^ 11 = 0
  · rw [if_pos he]
    refine ⟨?_, ?_, ?_, ?_, ?_⟩ <;> dsimp only
    · omega
    · omega
    · omega
    · exact fun _ => rfl
    · simp
  · rw [if_neg he]
    refine ⟨?_, ?_, ?_, ?_, ?_⟩ <;> dsimp only
    · omega
    · omega
    · omega
    · omega
    · simp only [Bool.and_eq_true, beq_iff_eq, decide_eq_true_eq]
      omega

/-- What lies within half a unit, and strictly so if the mantissa is odd, is rounded
    to the mantissa. -/
theorem roundToEven_of {a b m : Nat} {u : ℚ} (hb : 0 < b) (hu : (a : ℚ) / b = u)
    (hlow : (m : ℚ) ≤ u + 1 / 2) (hhigh : u ≤ m + 1 / 2)
    (htie : m % 2 = 1 → (m : ℚ) < u + 1 / 2 ∧ u < m + 1 / 2) : roundToEven a b = m := by
  have hb' : (0 : ℚ) < b := by exact_mod_cast hb
  have hab : (a : ℚ) = u * b := by rw [← hu, div_mul_cancel₀ _ hb'.ne']
  refine roundToEven_eq hb ?_ ?_ fun hodd => ⟨?_, ?_⟩
  · have : 2 * (m : ℚ) * b ≤ 2 * a + b := by rw [hab]; nlinarith
    exact_mod_cast this
  · have : 2 * (a : ℚ) ≤ 2 * m * b + b := by rw [hab]; nlinarith
    exact_mod_cast this
  · have : 2 * (m : ℚ) * b < 2 * a + b := by rw [hab]; nlinarith [(htie hodd).1]
    exact_mod_cast this
  · have : 2 * (a : ℚ) < 2 * m * b + b := by rw [hab]; nlinarith [(htie hodd).2]
    exact_mod_cast this

/-- The number below a power of two may be taken for that power with the exponent
    below. -/
theorem assembled_carry {e : Int} (hl : -1074 < e) (hg : e ≤ 971) :
    assembled (2 ^ 53) (e - 1) = assembled (2 ^ 52) e := by
  have hfull : leastFull = 2 ^ 52 := rfl
  rw [assembled, assembled, hfull, if_neg (show ¬ 2 ^ 53 < 2 ^ 52 by norm_num),
    if_neg (show ¬ 2 ^ 52 < 2 ^ 52 by norm_num)]
  dsimp only
  rw [if_neg (by omega), if_neg (by omega)]
  exact congrArg Nat.toUInt64 (by omega)

/-- **A quotient in the interval of a number is rounded to it.** -/
theorem nearest_of_holds {bits : UInt64} {num den : Nat} (hp : IsPlain bits)
    (hm : (magnitude bits).mantissa ≠ 0) (hden : 0 < den)
    (h : (magnitude bits).interval.Holds ((num : ℚ) / den / 2 ^ ((magnitude bits).exponent - 2))) :
    nearest num den = bits := by
  rw [← assembled_magnitude hp]
  have hx := isFinite_magnitude hp
  generalize magnitude bits = x at *
  obtain ⟨hm53, hleast, hgreatest, hsub, htwo⟩ := hx
  set v : ℚ := num / den with hv
  set u : ℚ := v / 2 ^ x.exponent with hu
  have hw : v / 2 ^ (x.exponent - 2) = 4 * u := by
    rw [hu, zpow_sub₀ (by norm_num)]
    field_simp
    norm_num
  rw [hw] at h
  obtain ⟨hlow, hhigh⟩ := h.bounds
  obtain ⟨hlowEq, hhighEq⟩ := x.interval_ends hm
  have hhigh' : u ≤ x.mantissa + 1 / 2 := by
    rw [hhighEq] at hhigh
    linarith
  have hlow' : (x.mantissa : ℚ) ≤ u + 1 / 2 := by
    rw [hlowEq] at hlow
    split_ifs at hlow <;> linarith
  have hone : (1 : ℚ) ≤ x.mantissa := by exact_mod_cast Nat.one_le_iff_ne_zero.2 hm
  have hnum : num ≠ 0 := by
    rintro rfl
    have : u = 0 := by simp [hu, hv]
    linarith
  by_cases hcase : 2 ^ 52 ≤ u ∨ x.exponent = -1074
  · have hmax : (x.mantissa : ℚ) + 1 ≤ 2 ^ 53 := by exact_mod_cast hm53
    have hexp : IsExponent v x.exponent :=
      ⟨hleast, by linarith, fun hlt => hcase.resolve_right (by omega)⟩
    rw [nearest_eq hnum hden hexp,
      roundToEven_of (scaled_pos num hden _) (scaled_eq num den _) hlow' hhigh' fun hodd => ?_]
    have hopen : x.interval.closed = false := by simp [Magnitude.interval, hodd]
    obtain ⟨hlow, hhigh⟩ := h.strict hopen
    rw [hlowEq] at hlow
    rw [hhighEq] at hhigh
    exact ⟨by split_ifs at hlow <;> linarith, by linarith⟩
  · rw [not_or, not_le] at hcase
    obtain ⟨hu52, hne⟩ := hcase
    -- The quotient is below the power of two that is the number, with half the unit.
    have hm52 : x.mantissa = 2 ^ 52 := by
      have hge : ¬ x.mantissa < 2 ^ 52 := fun hlt => hne (hsub hlt)
      have hle : (x.mantissa : ℚ) < 2 ^ 52 + 1 := by linarith
      have : x.mantissa < 2 ^ 52 + 1 := by exact_mod_cast hle
      omega
    have hquarter : (2 : ℚ) ^ 52 ≤ u + 1 / 4 := by
      rw [hlowEq, if_pos (htwo.2 ⟨hm52, by omega⟩), hm52] at hlow
      push_cast at hlow
      linarith
    have hdouble : v / 2 ^ (x.exponent - 1) = 2 * u := by
      rw [hu, zpow_sub_one₀ (by norm_num)]
      field_simp
    have hexp : IsExponent v (x.exponent - 1) :=
      ⟨by omega, by rw [hdouble]; linarith, fun _ => by rw [hdouble]; linarith⟩
    have hround : roundToEven (scaled num den (x.exponent - 1)).1 (scaled num den (x.exponent - 1)).2 =
        2 ^ 53 := by
      refine roundToEven_of (scaled_pos num hden _) ((scaled_eq num den _).trans hdouble) ?_ ?_ (by norm_num)
      · push_cast
        linarith
      · push_cast
        linarith
    rw [nearest_eq hnum hden hexp, hround, assembled_carry (by omega) hgreatest, hm52]

/-! ## Signs -/

theorem roundToEven_le {a b m : Nat} (hb : 0 < b) (h : a < m * b) : roundToEven a b ≤ m := by
  have hq : a / b < m := (Nat.div_lt_iff_lt_mul hb).2 h
  rw [roundToEven]
  split_ifs <;> omega

theorem assembled_lt {m : Nat} {e : Int} (h : m ≤ 2 ^ 53) : (assembled m e).toNat < 2 ^ 63 := by
  have hfull : leastFull = 2 ^ 52 := rfl
  rw [assembled, hfull]
  dsimp only
  split_ifs
  · rw [Nat.toUInt64_eq, UInt64.toNat_ofNat_of_lt' (by simp [UInt64.size]; omega)]
    omega
  · decide
  · rw [Nat.toUInt64_eq, UInt64.toNat_ofNat_of_lt' (by simp [UInt64.size]; omega)]
    omega

/-- **No quotient of naturals is rounded to a number below zero.** -/
theorem nearest_nonnegative {num den : Nat} (hden : 0 < den) : isNegative (nearest num den) = false := by
  rw [isNegative_eq, decide_eq_false_iff_not, Nat.not_le]
  by_cases hnum : num = 0
  · rw [nearest, if_pos hnum]
    decide
  · have he := isExponent_found hnum hden
    have hpos := scaled_pos num hden (foundExponent num den)
    have hlt := he.lt
    rw [nearest_eq hnum hden he]
    rw [← scaled_eq, div_lt_iff₀ (by exact_mod_cast hpos)] at hlt
    exact assembled_lt (roundToEven_le hpos (by exact_mod_cast hlt))

end DanishProse.Binary64

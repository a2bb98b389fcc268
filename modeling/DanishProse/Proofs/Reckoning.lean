/-
  What the words of a numeral add up to.

  * `Tally.Rests v previous t`: between two groups the tally `t` holds the value `v` of the
    groups so far, and the last scale was `previous`;
  * `Tally.Rests.group`: a group of a smaller scale adds its value, and the tally is again
    one between groups;
  * `value_parts`: the words of a numeral add up to its value.
-/
import DanishProse.Proofs.Numerals

namespace DanishProse.Numeral

/-! ## Numbers -/

section
variable {m n : Nat}

theorem toInt_ofNat (h : n < 1000000000000) : (Int64.ofNat n).toInt = n :=
  Int64.toInt_ofNat_of_lt (by omega)

theorem ofNat_ne_zero (hpos : 0 < n) (h : n < 1000000000000) : Int64.ofNat n ≠ 0 := by
  intro hzero
  have hint := congrArg Int64.toInt hzero
  rw [toInt_ofNat h, Int64.toInt_zero] at hint
  omega

theorem add_right_comm (a b c : Int64) : a + b + c = a + c + b := by
  rw [Int64.add_assoc, Int64.add_comm b, ← Int64.add_assoc]

theorem ofNat_le_ofNat (hm : m < 1000000000000) (hn : n < 1000000000000) :
    Int64.ofNat m ≤ Int64.ofNat n ↔ m ≤ n := by
  rw [Int64.le_iff_toInt_le, toInt_ofNat hm, toInt_ofNat hn, Int.ofNat_le]

end

namespace Tally

/-! ## Words one by one -/

/-- A tally with the units that are given. -/
def withUnits (t : Tally) (u : Int64) : Tally :=
  { t with units := u }

/-- A tally after some words. -/
def addAll (t : Tally) (ss : List Spelling) : Tally :=
  (ss.filterMap Spelling.part).foldl add t

section
variable (t : Tally) {table : List (String × Nat)} (e : Entry table) (ss : List Spelling)

@[simp] theorem addAll_nil : t.addAll [] = t := rfl

@[simp] theorem addAll_added : t.addAll (e.added :: ss) =
    (t.withUnits (t.units + Int64.ofNat e.value)).addAll ss := rfl

@[simp] theorem addAll_multiplying : t.addAll (e.multiplying :: ss) =
    (t.add (.scale (Int64.ofNat e.value))).addAll ss := rfl

@[simp] theorem addAll_filler (text : String) : t.addAll (.filler text :: ss) = t.addAll ss := rfl

theorem addAll_append (ss' : List Spelling) : t.addAll (ss ++ ss') = (t.addAll ss).addAll ss' := by
  rw [addAll, List.filterMap_append, List.foldl_append]
  rfl

/-- The words of a number below a hundred are added to the units. -/
theorem addAll_small (s : Small) : t.addAll s.pieces = t.withUnits (t.units + Int64.ofNat s.value) := by
  cases s with
  | unit u => rfl
  | teen t' => rfl
  | ten t' => rfl
  | unitTen u t' =>
    simp only [Small.pieces, Small.value, addAll_added, addAll_filler, addAll_nil]
    rw [Int64.ofNat_add, ← Int64.add_assoc]
    rfl

end

/-! ## Groups -/

/-- The tally between two groups: what they come to so far, and the last scale. -/
inductive Rests : Nat → Option (Entry scaleWords) → Tally → Prop
  | start : Rests 0 none {}
  | behind {v : Nat} {closed product : Int64} {e : Entry scaleWords} (sum : closed + product = Int64.ofNat v) :
      Rests v (some e) ⟨closed, product, 0, Int64.ofNat e.value⟩

section
variable {v : Nat} {previous : Option (Entry scaleWords)} {t : Tally}

theorem Rests.units_eq (h : Rests v previous t) : t.units = 0 := by
  cases h <;> rfl

theorem Rests.withUnits_zero (h : Rests v previous t) : t.withUnits 0 = t := by
  cases h <;> rfl

/-- A scale that is smaller than the one before closes the groups so far. -/
theorem Rests.scaled (h : Rests v previous t) {f : Nat} (hpos : 0 < f) (hlt : f < 1000000000000)
    (hprevious : ∀ e ∈ previous, f ≤ e.value) (u : Int64) :
    (t.withUnits u).add (.scale (Int64.ofNat f)) =
      ⟨Int64.ofNat v, (if u = 0 then 1 else u) * Int64.ofNat f, 0, Int64.ofNat f⟩ := by
  cases h with
  | start =>
    have hfirst : ¬ Int64.ofNat f ≤ 0 := by
      rw [show (0 : Int64) = Int64.ofNat 0 from rfl, ofNat_le_ofNat hlt (by decide)]
      omega
    simp [withUnits, add, hfirst]
  | @behind _ closed product e hsum =>
    have hscale := e.scale_bounds
    have hsmaller : Int64.ofNat f ≤ Int64.ofNat e.value :=
      (ofNat_le_ofNat hlt (by omega)).2 (hprevious e rfl)
    simp [withUnits, add, hsmaller, hsum]

/-- A hundred and what comes behind it, before any larger scale. -/
theorem Rests.hundred (h : Rests v previous t) (count : Option (Entry unitWords)) (w : Entry hundredWords)
    (rest : Option Small) : t.addAll (Coefficient.hundred count w rest).pieces =
      ⟨Int64.ofNat v, Int64.ofNat (count.elim 1 Entry.value * 100), Int64.ofNat (rest.elim 0 Small.value),
        Int64.ofNat 100⟩ := by
  have hscaled := h.scaled (f := 100) (by decide) (by decide) fun e _ => by
    have hscale := e.scale_bounds
    omega
  have hcount : t.addAll (count.toList.map Entry.added ++ [w.multiplying]) =
      ⟨Int64.ofNat v, Int64.ofNat (count.elim 1 Entry.value * 100), 0, Int64.ofNat 100⟩ := by
    rw [Int64.ofNat_mul]
    cases count with
    | none =>
      have hone := hscaled 0
      rw [h.withUnits_zero, if_pos rfl] at hone
      simpa [w.hundred_eq] using hone
    | some u =>
      have hu := u.unit_bounds
      have hunits := hscaled (Int64.ofNat u.value)
      rw [if_neg (ofNat_ne_zero (by omega) (by omega))] at hunits
      simpa [w.hundred_eq, h.units_eq] using hunits
  rw [Coefficient.pieces, List.append_cons, addAll_append, hcount]
  cases rest with
  | none => rfl
  | some s =>
    rw [Option.elim_some, addAll_small, Option.elim_some, Int64.zero_add]
    rfl

/-- **A group adds its value.** -/
theorem Rests.group (h : Rests v previous t) (g : Group) (hprevious : ∀ e ∈ previous, g.scale.value < e.value) :
    Rests (v + g.value) (some g.scale) (t.addAll g.pieces) := by
  obtain ⟨coefficient, scale⟩ := g
  have hscale := scale.scale_bounds
  have hscaled := h.scaled (f := scale.value) (by omega) (by omega) fun e he => Nat.le_of_lt (hprevious e he)
  rw [Group.pieces, addAll_append, addAll_multiplying, addAll_nil]
  match coefficient with
  | none =>
    have hone := hscaled 0
    rw [h.withUnits_zero, if_pos rfl] at hone
    rw [Option.elim_none, addAll_nil, hone]
    refine .behind ?_
    rw [Group.value, Int64.ofNat_add, Int64.ofNat_mul]
    rfl
  | some (.small s) =>
    have hs := s.value_bounds
    rw [Option.elim_some, Coefficient.pieces, addAll_small, h.units_eq, Int64.zero_add, hscaled,
      if_neg (ofNat_ne_zero (by omega) (by omega))]
    refine .behind ?_
    rw [Group.value, Int64.ofNat_add, Int64.ofNat_mul]
    rfl
  | some (.hundred count w rest) =>
    have hcount := count_bounds count
    have hlarger : ¬ Int64.ofNat scale.value ≤ Int64.ofNat 100 := by
      rw [ofNat_le_ofNat (by omega) (by decide)]
      omega
    -- the hundreds before stand in the product, and wait for this scale
    have hwaiting : Int64.ofNat (count.elim 1 Entry.value * 100) ≠ 0 :=
      ofNat_ne_zero (by omega) (by omega)
    rw [Option.elim_some, h.hundred, add]
    simp only [hlarger, if_false, hwaiting, and_false]
    refine .behind ?_
    rw [Group.value, Option.elim_some, Coefficient.value, w.hundred_eq, Int64.ofNat_add,
      Int64.ofNat_mul (_ + _), Int64.ofNat_add (_ * _)]

/-- The groups of a numeral, one after the other, each of a smaller scale than the one before. -/
theorem Rests.groups (h : Rests v previous t) {groups : List Group}
    (hdescending : groups.Pairwise fun g h => h.scale.value < g.scale.value)
    (hprevious : ∀ e ∈ previous, ∀ g ∈ groups, g.scale.value < e.value) :
    ∃ last, Rests (v + (groups.map Group.value).sum) last (t.addAll (groups.flatMap Group.pieces)) := by
  induction groups generalizing v previous t with
  | nil => exact ⟨previous, h⟩
  | cons g gs ih =>
    obtain ⟨hfirst, hrest⟩ := List.pairwise_cons.1 hdescending
    have hgroup := h.group g fun e he => hprevious e he g List.mem_cons_self
    obtain ⟨last, hlast⟩ := ih hgroup hrest fun e he k hk => by
      cases he
      exact hfirst k hk
    rw [List.map_cons, List.sum_cons, ← Nat.add_assoc, List.flatMap_cons, addAll_append]
    exact ⟨last, hlast⟩

theorem Rests.closed_add_product (h : Rests v previous t) : t.closed + t.product = Int64.ofNat v := by
  cases h with
  | start => rfl
  | behind hsum => exact hsum

/-- A last coefficient adds its value. -/
theorem Rests.total (h : Rests v previous t) (last : Option Coefficient) :
    (t.addAll (last.elim [] Coefficient.pieces)).total = Int64.ofNat (v + last.elim 0 Coefficient.value) := by
  match last with
  | none =>
    rw [Option.elim_none, addAll_nil, Tally.total, h.units_eq, Int64.add_zero, h.closed_add_product]
    rfl
  | some (.small s) =>
    rw [Option.elim_some, Coefficient.pieces, addAll_small, h.units_eq, Int64.zero_add, Int64.ofNat_add,
      ← h.closed_add_product]
    exact Numeral.add_right_comm _ _ _
  | some (.hundred count w rest) =>
    rw [Option.elim_some, h.hundred, Option.elim_some, Coefficient.value, w.hundred_eq, Int64.ofNat_add,
      Int64.ofNat_add (count.elim 1 Entry.value * 100), ← Int64.add_assoc]
    exact Numeral.add_right_comm _ _ _

end

end Tally

/-- **The words of a numeral add up to its value.** -/
theorem value_parts (n : Phrase) : Numeral.value n.parts = Int64.ofNat n.value := by
  obtain ⟨last, hrests⟩ := Tally.Rests.start.groups n.descending fun _ he => by cases he
  have htotal := hrests.total n.last
  rw [← Tally.addAll_append, Nat.zero_add] at htotal
  exact htotal

end DanishProse.Numeral

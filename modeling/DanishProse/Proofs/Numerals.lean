/-
  Danish numerals as people spell them.

  A numeral is a row of groups, each with a coefficient from 1 to 999 and a scale that is
  smaller than the one before; the last group may have no scale.

  * the tables hold the number words, each with its value; an `Entry` is a word of one
    of them;
  * `Small`, `Coefficient`, `Group` and `Phrase` are numerals, part by part.  Each has a
    `value`, and `pieces` in the order in which they are spelled: number words, and an
    `og` between a unit and its ten;
  * `Phrase.value_lt`: no numeral reaches a thousand milliards.
-/
import Mathlib.Algebra.GroupWithZero.Nat
import Mathlib.Data.List.Basic
import Mathlib.Tactic.Common
import DanishProse.Numeral

namespace DanishProse.Numeral

/-! ## Number words -/

/-- The words for one to nine. -/
def unitWords : List (String × Nat) :=
  [("en", 1), ("et", 1), ("to", 2), ("tre", 3), ("fire", 4), ("fem", 5), ("seks", 6), ("syv", 7),
    ("otte", 8), ("ni", 9)]

/-- The words for eleven to nineteen. -/
def teenWords : List (String × Nat) :=
  [("elleve", 11), ("tolv", 12), ("tretten", 13), ("fjorten", 14), ("femten", 15), ("seksten", 16),
    ("sytten", 17), ("atten", 18), ("nitten", 19)]

/-- The words for ten, twenty and so on. -/
def tenWords : List (String × Nat) :=
  [("ti", 10), ("tyve", 20), ("tredive", 30), ("fyrre", 40), ("halvtreds", 50), ("tres", 60),
    ("halvfjers", 70), ("firs", 80), ("halvfems", 90)]

/-- The words for a hundred. -/
def hundredWords : List (String × Nat) :=
  [("hundred", 100), ("hundrede", 100)]

/-- The words for the scales. -/
def scaleWords : List (String × Nat) :=
  [("tusind", 1000), ("tusinde", 1000), ("million", 1000000), ("millioner", 1000000),
    ("milliard", 1000000000), ("milliarder", 1000000000)]

/-- A number word of a table. -/
structure Entry (table : List (String × Nat)) where
  text : String
  value : Nat
  listed : (text, value) ∈ table

namespace Entry
variable {table : List (String × Nat)}

/-- The word, as one that is added. -/
def added (e : Entry table) : Spelling :=
  .units e.text (Int64.ofNat e.value)

/-- The word, as one that multiplies. -/
def multiplying (e : Entry table) : Spelling :=
  .scale e.text (Int64.ofNat e.value)

end Entry

/-- The words of a table, as words that are added. -/
def addedWords (table : List (String × Nat)) : List Spelling :=
  table.map fun e => .units e.1 (Int64.ofNat e.2)

/-- The words of a table, as words that multiply. -/
def multiplyingWords (table : List (String × Nat)) : List Spelling :=
  table.map fun e => .scale e.1 (Int64.ofNat e.2)

section
variable {table : List (String × Nat)} (e : Entry table)

theorem Entry.added_mem : e.added ∈ addedWords table :=
  List.mem_map_of_mem e.listed

theorem Entry.multiplying_mem : e.multiplying ∈ multiplyingWords table :=
  List.mem_map_of_mem e.listed

end

/-! ## Numerals -/

/-- A number below a hundred: a unit, a teen, a ten, or a unit and a ten. -/
inductive Small where
  | unit (u : Entry unitWords)
  | teen (t : Entry teenWords)
  | ten (t : Entry tenWords)
  | unitTen (u : Entry unitWords) (t : Entry tenWords)

/-- A number below a thousand.  One hundred may do without its unit. -/
inductive Coefficient where
  | small (s : Small)
  | hundred (count : Option (Entry unitWords)) (h : Entry hundredWords) (rest : Option Small)

/-- A scale with its coefficient, which may be left out when it is one. -/
structure Group where
  coefficient : Option Coefficient
  scale : Entry scaleWords

/-- A numeral: groups of descending scale, and a last one without scale.  There is at least one of
    them. -/
structure Phrase where
  groups : List Group
  last : Option Coefficient
  descending : groups.Pairwise fun g h => h.scale.value < g.scale.value
  nonempty : groups ≠ [] ∨ last ≠ none

/-! ### Values -/

/-- The value of a number below a hundred. -/
def Small.value : Small → Nat
  | unit u => u.value
  | teen t => t.value
  | ten t => t.value
  | unitTen u t => u.value + t.value

/-- The value of a coefficient. -/
def Coefficient.value : Coefficient → Nat
  | small s => s.value
  | hundred count h rest => count.elim 1 Entry.value * h.value + rest.elim 0 Small.value

/-- The value of a group. -/
def Group.value (g : Group) : Nat :=
  g.coefficient.elim 1 Coefficient.value * g.scale.value

/-- The value of a numeral. -/
def Phrase.value (n : Phrase) : Nat :=
  (n.groups.map Group.value).sum + n.last.elim 0 Coefficient.value

/-! ### Words -/

/-- How a number below a hundred is spelled. -/
def Small.pieces : Small → List Spelling
  | unit u => [u.added]
  | teen t => [t.added]
  | ten t => [t.added]
  | unitTen u t => [u.added, .filler "og", t.added]

/-- How a coefficient is spelled. -/
def Coefficient.pieces : Coefficient → List Spelling
  | small s => s.pieces
  | hundred count h rest => count.toList.map Entry.added ++ h.multiplying :: rest.elim [] Small.pieces

/-- How a group is spelled. -/
def Group.pieces (g : Group) : List Spelling :=
  g.coefficient.elim [] Coefficient.pieces ++ [g.scale.multiplying]

/-- How a numeral is spelled. -/
def Phrase.pieces (n : Phrase) : List Spelling :=
  n.groups.flatMap Group.pieces ++ n.last.elim [] Coefficient.pieces

/-- The number words of a numeral. -/
def Phrase.words (n : Phrase) : List Spelling :=
  n.pieces.filter (·.part.isSome)

/-- What the words of a numeral stand for. -/
def Phrase.parts (n : Phrase) : List Part :=
  n.pieces.filterMap Spelling.part

theorem Phrase.filterMap_words (n : Phrase) : n.words.filterMap Spelling.part = n.parts := by
  rw [words, parts, List.filterMap_filter]
  congr 1
  funext s
  cases hpart : s.part <;> simp

/-! ## Bounds -/

theorem Entry.unit_bounds (u : Entry unitWords) : 1 ≤ u.value ∧ u.value ≤ 9 := by
  have htable : ∀ e ∈ unitWords, 1 ≤ e.2 ∧ e.2 ≤ 9 := by decide
  exact htable _ u.listed

theorem Entry.teen_bounds (t : Entry teenWords) : 11 ≤ t.value ∧ t.value ≤ 19 := by
  have htable : ∀ e ∈ teenWords, 11 ≤ e.2 ∧ e.2 ≤ 19 := by decide
  exact htable _ t.listed

theorem Entry.ten_bounds (t : Entry tenWords) : 10 ≤ t.value ∧ t.value ≤ 90 := by
  have htable : ∀ e ∈ tenWords, 10 ≤ e.2 ∧ e.2 ≤ 90 := by decide
  exact htable _ t.listed

theorem Entry.hundred_eq (h : Entry hundredWords) : h.value = 100 := by
  have htable : ∀ e ∈ hundredWords, e.2 = 100 := by decide
  exact htable _ h.listed

theorem Entry.scale_bounds (e : Entry scaleWords) : 1000 ≤ e.value ∧ e.value ≤ 1000000000 := by
  have htable : ∀ e ∈ scaleWords, 1000 ≤ e.2 ∧ e.2 ≤ 1000000000 := by decide
  exact htable _ e.listed

/-- A smaller scale is at most a thousandth of a larger one. -/
theorem Entry.thousandfold {e f : Entry scaleWords} (h : e.value < f.value) : 1000 * e.value ≤ f.value := by
  have htable : ∀ e ∈ scaleWords, ∀ f ∈ scaleWords, e.2 < f.2 → 1000 * e.2 ≤ f.2 := by decide
  exact htable _ e.listed _ f.listed h

theorem Small.value_bounds (s : Small) : 1 ≤ s.value ∧ s.value ≤ 99 := by
  cases s with
  | unit u =>
    have hu := u.unit_bounds
    simp only [value]
    omega
  | teen t =>
    have ht := t.teen_bounds
    simp only [value]
    omega
  | ten t =>
    have ht := t.ten_bounds
    simp only [value]
    omega
  | unitTen u t =>
    have hu := u.unit_bounds
    have ht := t.ten_bounds
    simp only [value]
    omega

theorem count_bounds (count : Option (Entry unitWords)) :
    1 ≤ count.elim 1 Entry.value ∧ count.elim 1 Entry.value ≤ 9 := by
  cases count with
  | none => decide
  | some u => exact u.unit_bounds

theorem rest_le (rest : Option Small) : rest.elim 0 Small.value ≤ 99 := by
  cases rest with
  | none => decide
  | some s => exact s.value_bounds.2

theorem Coefficient.value_bounds (c : Coefficient) : 1 ≤ c.value ∧ c.value ≤ 999 := by
  cases c with
  | small s =>
    have hs := s.value_bounds
    simp only [value]
    omega
  | hundred count h rest =>
    have hcount := count_bounds count
    have hrest := rest_le rest
    simp only [value, h.hundred_eq]
    omega

theorem Group.value_le (g : Group) : g.value ≤ 999 * g.scale.value := by
  refine Nat.mul_le_mul_right _ ?_
  cases g.coefficient with
  | none => decide
  | some c => exact c.value_bounds.2

/-- What follows a scale stays below it. -/
theorem value_lt_bound {groups : List Group} (h : groups.Pairwise fun g h => h.scale.value < g.scale.value)
    (last : Option Coefficient) {bound : Nat} (hbound : 1000 ≤ bound)
    (hgroups : ∀ g ∈ groups, 1000 * g.scale.value ≤ bound) :
    (groups.map Group.value).sum + last.elim 0 Coefficient.value < bound := by
  induction groups generalizing bound with
  | nil =>
    have hlast : last.elim 0 Coefficient.value ≤ 999 := by
      cases last with
      | none => decide
      | some c => exact c.value_bounds.2
    simp only [List.map_nil, List.sum_nil]
    omega
  | cons g gs ih =>
    obtain ⟨hfirst, hrest⟩ := List.pairwise_cons.1 h
    have hbehind := ih hrest g.scale.scale_bounds.1 fun k hk => Entry.thousandfold (hfirst k hk)
    have hown := g.value_le
    have hscale := hgroups g List.mem_cons_self
    rw [List.map_cons, List.sum_cons]
    omega

theorem Group.value_pos (g : Group) : 1 ≤ g.value := by
  have hscale := g.scale.scale_bounds
  refine Nat.mul_pos ?_ (by omega)
  cases g.coefficient with
  | none => decide
  | some c => exact c.value_bounds.1

theorem Phrase.value_pos (n : Phrase) : 1 ≤ n.value := by
  rw [value]
  rcases n.nonempty with hgroups | hlast
  · obtain ⟨g, gs, hsplit⟩ := List.exists_cons_of_ne_nil hgroups
    have hfirst := g.value_pos
    rw [hsplit, List.map_cons, List.sum_cons]
    omega
  · obtain ⟨c, hc⟩ := Option.ne_none_iff_exists'.1 hlast
    have hlast' := c.value_bounds
    rw [hc, Option.elim_some]
    omega

theorem Phrase.value_lt (n : Phrase) : n.value < 1000000000000 := by
  refine value_lt_bound n.descending n.last (by decide) fun g _ => ?_
  have hscale := g.scale.scale_bounds
  omega

end DanishProse.Numeral

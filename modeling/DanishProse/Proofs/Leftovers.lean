/-
  Which pronouns are left when a clause list is resolved.

  `PronounsLead cs` says it list by list: in `cs` and in every list within it, at any
  depth, pronouns stand in the first clause only.

  * `clausesSettled_iff`: the lists with this property are the settled ones;
  * `resolveClauses_settles`: resolving a list gives one of them, and they are the
    lists that stay as they are.  So a second time changes nothing.
-/
import Mathlib.Logic.Relation
import DanishProse.Proofs.Antecedents
import DanishProse.Proofs.Pronouns

namespace DanishProse

/-- No clause of a list has a pronoun, except the first one. -/
def FirstOnly (cs : List Clause) : Prop :=
  ∀ c ∈ cs.tail, ∀ p ∈ c.parts, p.isPronoun = false

/-- The list itself, or one within it at some depth. -/
def Within (inner cs : List Clause) : Prop :=
  Relation.ReflTransGen NestedIn inner cs

/-- In a list and in all the lists within it, pronouns stand in the first clause only. -/
def PronounsLead (cs : List Clause) : Prop :=
  ∀ inner, Within inner cs → FirstOnly inner

section
variable {first : Bool} {cs : List Clause}

theorem Part.settled_iff {p : Part} : p.Settled first ↔
    (first = true ∨ p.isPronoun = false) ∧ ∀ inner, p = .list inner → ClausesSettled true inner := by
  cases p with
  | word w => simp [Part.Settled, Part.isPronoun]
  | literal v => simp [Part.Settled, Part.isPronoun]
  | list cs => simp [Part.Settled, Part.isPronoun]

theorem partsSettled_iff {ps : List Part} : PartsSettled first ps ↔ ∀ p ∈ ps, p.Settled first := by
  induction ps with
  | nil => simp [PartsSettled]
  | cons p ps ih => simp [PartsSettled, ih]

theorem Clause.settled_iff {c : Clause} : c.Settled first ↔ ∀ p ∈ c.parts, p.Settled first := by
  obtain ⟨l, ps⟩ := c
  exact partsSettled_iff

theorem clausesSettled_false_iff : ClausesSettled false cs ↔ ∀ c ∈ cs, c.Settled false := by
  induction cs with
  | nil => simp [ClausesSettled]
  | cons c cs ih => simp [ClausesSettled, ih]

/-- A list is settled if it is so itself, and so are the lists in its brackets. -/
theorem clausesSettled_iff_nested :
    ClausesSettled true cs ↔ FirstOnly cs ∧ ∀ inner, NestedIn inner cs → ClausesSettled true inner := by
  cases cs with
  | nil => simp [ClausesSettled, FirstOnly, NestedIn]
  | cons c cs =>
    rw [ClausesSettled, clausesSettled_false_iff]
    simp only [Clause.settled_iff, Part.settled_iff]
    constructor
    · rintro ⟨hc, hcs⟩
      refine ⟨fun d hd p hp => ?_, ?_⟩
      · simpa using (hcs d hd p hp).1
      · rintro inner ⟨d, hd, hinner⟩
        rcases List.mem_cons.1 hd with rfl | hd
        · exact (hc _ hinner).2 inner rfl
        · exact (hcs d hd _ hinner).2 inner rfl
    · rintro ⟨hfirst, hnested⟩
      refine ⟨fun p hp => ⟨.inl trivial, ?_⟩, fun d hd p hp => ⟨.inr (hfirst d hd p hp), ?_⟩⟩
      · rintro inner rfl
        exact hnested inner ⟨c, List.mem_cons_self, hp⟩
      · rintro inner rfl
        exact hnested inner ⟨d, List.mem_cons_of_mem c hd, hp⟩

theorem PronounsLead.nested (h : PronounsLead cs) {inner : List Clause} (hinner : NestedIn inner cs) :
    PronounsLead inner :=
  fun _ hlist => h _ (Relation.ReflTransGen.tail hlist hinner)

theorem ClausesSettled.within (h : ClausesSettled true cs) {inner : List Clause} (hinner : Within inner cs) :
    ClausesSettled true inner := by
  -- from the whole list inwards
  induction hinner using Relation.ReflTransGen.head_induction_on with
  | refl => exact h
  | head hnested _ ih => exact (clausesSettled_iff_nested.1 ih).2 _ hnested

/-- **A list is settled if its pronouns, at any depth, stand in first clauses.** -/
theorem clausesSettled_iff (cs : List Clause) : ClausesSettled true cs ↔ PronounsLead cs := by
  constructor
  · intro h inner hinner
    exact (clausesSettled_iff_nested.1 (h.within hinner)).1
  · intro h
    refine clausesSettled_iff_nested.2 ⟨h cs .refl, fun inner hinner => ?_⟩
    exact (clausesSettled_iff inner).2 (h.nested hinner)
termination_by sizeOf cs
decreasing_by exact sizeOf_lt_of_nestedIn hinner

end

/-- **Resolving a list leaves pronouns in first clauses only, and a second time changes nothing.**  The
    pronouns that are left, at any depth, stand in the first clause of the list that they are in;
    the lists of this kind are the ones that stay as they are. -/
theorem resolveClauses_settles (cs : List Clause) :
    PronounsLead (resolveClauses cs) ∧ resolveClauses (resolveClauses cs) = resolveClauses cs ∧
      (resolveClauses cs = cs ↔ PronounsLead cs) := by
  have hsettled := settled_resolveClauses cs
  refine ⟨(clausesSettled_iff _).1 hsettled, resolveClauses_eq hsettled, ?_⟩
  rw [← clausesSettled_iff]
  constructor
  · intro hsame
    rw [← hsame]
    exact hsettled
  · exact resolveClauses_eq

/-- A second pronoun stays, and the clause that it is in comes first. -/
example : clausesText (resolveClauses (resolveClauses [.mk .start [.word "A"],
    .mk .start [.word "gem", .word "det", .word "i", .word "det"]])) = "gem (A) i det" := by
  decide +kernel

end DanishProse

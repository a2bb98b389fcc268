/-
  What resolving the pronouns of a clause list does not touch.

  * `leaves` are the words and values of a list, at any depth: there are no new ones
    afterwards (`forall_leaves_resolveClauses`);
  * a list is settled if pronouns stand in its first clause only, where nothing is
    before them.  It is settled afterwards (`settled_resolveClauses`), and a settled
    list stays as it is (`resolveClauses_eq`);
  * `unlocated` forgets where clauses begin, which makes no difference
    (`unlocated_resolveClauses`).
-/
import Mathlib.Data.List.Basic
import Mathlib.Tactic.Common
import DanishProse.Prose.Pronoun

namespace DanishProse

/-! ## Leaves -/

mutual

/-- The words and values of a part, at any depth. -/
def Part.leaves : Part → List Part
  | .word w => [.word w]
  | .literal v => [.literal v]
  | .list cs => clausesLeaves cs
termination_by structural p => p

/-- The words and values of a clause, at any depth. -/
def Clause.leaves : Clause → List Part
  | .mk _ ps => partsLeaves ps
termination_by structural c => c

/-- The words and values of parts, at any depth. -/
def partsLeaves : List Part → List Part
  | [] => []
  | p :: ps => p.leaves ++ partsLeaves ps
termination_by structural ps => ps

/-- The words and values of clauses, at any depth. -/
def clausesLeaves : List Clause → List Part
  | [] => []
  | c :: cs => c.leaves ++ clausesLeaves cs
termination_by structural cs => cs

end

theorem clausesLeaves_append (cs ds : List Clause) :
    clausesLeaves (cs ++ ds) = clausesLeaves cs ++ clausesLeaves ds := by
  induction cs with
  | nil => rfl
  | cons c cs ih => simp [clausesLeaves, ih]

section
variable {P : Part → Prop}

mutual

theorem forall_leaves_resolveFrom : ∀ (cs : List Clause) {done : List Clause},
    (∀ q ∈ clausesLeaves done, P q) → (∀ q ∈ clausesLeaves cs, P q) →
      ∀ q ∈ clausesLeaves (resolveFrom done cs), P q
  | [], _, hd, _ => hd
  | c :: cs, _, hd, hc => by
    obtain ⟨hc, hcs⟩ := List.forall_mem_append.1 hc
    exact forall_leaves_resolveFrom cs (forall_leaves_resolveAfter c hd hc) hcs

theorem forall_leaves_resolveAfter : ∀ (c : Clause) {done : List Clause},
    (∀ q ∈ clausesLeaves done, P q) → (∀ q ∈ c.leaves, P q) →
      ∀ q ∈ clausesLeaves (c.resolveAfter done), P q
  | .mk l ps, done, hd, hc => by
    obtain ⟨ha, hv⟩ := forall_leaves_resolveParts ps hd hc
    rw [Clause.resolveAfter, clausesLeaves_append, List.forall_mem_append]
    refine ⟨ha, ?_⟩
    rw [clausesLeaves, Clause.leaves, clausesLeaves, List.append_nil]
    exact hv

theorem forall_leaves_resolveParts : ∀ (ps : List Part) {antecedent : List Clause},
    (∀ q ∈ clausesLeaves antecedent, P q) → (∀ q ∈ partsLeaves ps, P q) →
      (∀ q ∈ clausesLeaves (resolveParts antecedent ps).antecedent, P q) ∧
        ∀ q ∈ partsLeaves (resolveParts antecedent ps).value, P q
  | [], _, ha, _ => ⟨ha, by simp [resolveParts, partsLeaves]⟩
  | p :: ps, _, ha, hp => by
    obtain ⟨hp, hps⟩ := List.forall_mem_append.1 hp
    obtain ⟨hq, hqv⟩ := forall_leaves_resolve p ha hp
    obtain ⟨hr, hrv⟩ := forall_leaves_resolveParts ps hq hps
    exact ⟨hr, List.forall_mem_append.2 ⟨hqv, hrv⟩⟩

theorem forall_leaves_resolve : ∀ (p : Part) {antecedent : List Clause},
    (∀ q ∈ clausesLeaves antecedent, P q) → (∀ q ∈ p.leaves, P q) →
      (∀ q ∈ clausesLeaves (p.resolve antecedent).antecedent, P q) ∧
        ∀ q ∈ (p.resolve antecedent).value.leaves, P q
  | .word w, _, ha, hp => by
    rw [Part.resolve]
    split_ifs
    · exact ⟨by simp [clausesLeaves], ha⟩
    · exact ⟨ha, hp⟩
  | .literal _, _, ha, hp => ⟨ha, hp⟩
  | .list cs, _, ha, hp => ⟨ha, forall_leaves_resolveFrom cs (by simp [clausesLeaves]) hp⟩

end

/-- **Pronouns bring no new words and values.** -/
theorem forall_leaves_resolveClauses {cs : List Clause} (h : ∀ q ∈ clausesLeaves cs, P q) :
    ∀ q ∈ clausesLeaves (resolveClauses cs), P q :=
  forall_leaves_resolveFrom cs (by simp [clausesLeaves]) h

end

/-! ## Settled lists -/

mutual

/-- Pronouns stand where nothing is before them.  The flag says that nothing is before
    the part itself. -/
def Part.Settled (first : Bool) : Part → Prop
  | .word w => first = true ∨ isPronoun w = false
  | .literal _ => True
  | .list cs => ClausesSettled true cs
termination_by structural p => p

/-- The pronouns of a clause stand where nothing is before them. -/
def Clause.Settled (first : Bool) : Clause → Prop
  | .mk _ ps => PartsSettled first ps
termination_by structural c => c

/-- The pronouns of parts stand where nothing is before them. -/
def PartsSettled (first : Bool) : List Part → Prop
  | [] => True
  | p :: ps => p.Settled first ∧ PartsSettled first ps
termination_by structural ps => ps

/-- Pronouns stand in the first clause only, and there if nothing is before it. -/
def ClausesSettled (first : Bool) : List Clause → Prop
  | [] => True
  | c :: cs => c.Settled first ∧ ClausesSettled false cs
termination_by structural cs => cs

end

theorem clausesSettled_concat {first : Bool} {cs : List Clause} {c : Clause} :
    ClausesSettled first (cs ++ [c]) ↔
      ClausesSettled first cs ∧ c.Settled (cs.isEmpty && first) := by
  induction cs generalizing first with
  | nil => simp [ClausesSettled]
  | cons d cs ih => simp [ClausesSettled, ih, and_assoc]

theorem Part.Settled.mono {first : Bool} {p : Part} (h : p.Settled first) : p.Settled true := by
  cases p with
  | word w => exact .inl rfl
  | literal v => trivial
  | list cs => exact h

/-- What is left of the antecedent of a part is all of it or nothing. -/
theorem Part.resolve_antecedent (p : Part) (antecedent : List Clause) :
    (p.resolve antecedent).antecedent = antecedent ∨ (p.resolve antecedent).antecedent = [] := by
  cases p with
  | word w =>
    rw [Part.resolve]
    split_ifs
    · exact .inr rfl
    · exact .inl rfl
  | literal v => exact .inl rfl
  | list cs => exact .inl rfl

theorem resolveParts_antecedent (ps : List Part) (antecedent : List Clause) :
    (resolveParts antecedent ps).antecedent = antecedent ∨
      (resolveParts antecedent ps).antecedent = [] := by
  induction ps generalizing antecedent with
  | nil => exact .inl rfl
  | cons p ps ih =>
    rw [resolveParts]
    dsimp only
    rcases ih (p.resolve antecedent).antecedent with h | h
    · rw [h]
      exact p.resolve_antecedent antecedent
    · exact .inr h

mutual

theorem settled_resolveFrom : ∀ (cs : List Clause) {done : List Clause}, ClausesSettled true done →
    ClausesSettled true (resolveFrom done cs)
  | [], _, hd => hd
  | c :: cs, _, hd => settled_resolveFrom cs (settled_resolveAfter c hd)

theorem settled_resolveAfter : ∀ (c : Clause) {done : List Clause}, ClausesSettled true done →
    ClausesSettled true (c.resolveAfter done)
  | .mk l ps, done, hd => by
    obtain ⟨ha, hv⟩ := settled_resolveParts ps hd
    rw [Clause.resolveAfter, clausesSettled_concat, Bool.and_true]
    exact ⟨ha, hv⟩

theorem settled_resolveParts : ∀ (ps : List Part) {antecedent : List Clause},
    ClausesSettled true antecedent → ClausesSettled true (resolveParts antecedent ps).antecedent ∧
      PartsSettled (resolveParts antecedent ps).antecedent.isEmpty (resolveParts antecedent ps).value
  | [], _, ha => ⟨ha, trivial⟩
  | p :: ps, antecedent, ha => by
    obtain ⟨hq, hqv⟩ := settled_resolve p ha
    obtain ⟨hr, hrv⟩ := settled_resolveParts ps hq
    refine ⟨hr, ?_, hrv⟩
    -- a later pronoun may have taken the antecedent that the part left
    rw [resolveParts]
    rcases resolveParts_antecedent ps (p.resolve antecedent).antecedent with h | h
    · rw [h]
      exact hqv
    · rw [h]
      exact hqv.mono

theorem settled_resolve : ∀ (p : Part) {antecedent : List Clause},
    ClausesSettled true antecedent → ClausesSettled true (p.resolve antecedent).antecedent ∧
      (p.resolve antecedent).value.Settled (p.resolve antecedent).antecedent.isEmpty
  | .word w, antecedent, ha => by
    rw [Part.resolve]
    split_ifs with h
    · exact ⟨trivial, ha⟩
    · refine ⟨ha, ?_⟩
      rw [Part.Settled]
      revert h
      cases antecedent <;> cases isPronoun w <;> simp
  | .literal _, _, ha => ⟨ha, trivial⟩
  | .list cs, _, ha => ⟨ha, settled_resolveFrom cs trivial⟩

end

/-- **Resolving settles a list.** -/
theorem settled_resolveClauses (cs : List Clause) : ClausesSettled true (resolveClauses cs) :=
  settled_resolveFrom cs trivial

mutual

theorem resolveFrom_eq : ∀ (cs : List Clause) {done : List Clause}, ClausesSettled done.isEmpty cs →
    resolveFrom done cs = done ++ cs
  | [], done, _ => (List.append_nil done).symm
  | c :: cs, done, h => by
    have hrest : ClausesSettled (done ++ [c]).isEmpty cs := by
      rw [show (done ++ [c]).isEmpty = false by simp]
      exact h.2
    rw [resolveFrom, resolveAfter_eq c h.1, resolveFrom_eq cs hrest, List.append_assoc]
    rfl

theorem resolveAfter_eq : ∀ (c : Clause) {done : List Clause}, c.Settled done.isEmpty →
    c.resolveAfter done = done ++ [c]
  | .mk l ps, done, h => by rw [Clause.resolveAfter, resolveParts_eq ps h]

theorem resolveParts_eq : ∀ (ps : List Part) {antecedent : List Clause},
    PartsSettled antecedent.isEmpty ps → resolveParts antecedent ps = ⟨ps, antecedent⟩
  | [], _, _ => rfl
  | p :: ps, _, h => by
    rw [resolveParts, Part.resolve_eq p h.1]
    dsimp only
    rw [resolveParts_eq ps h.2]

theorem Part.resolve_eq : ∀ (p : Part) {antecedent : List Clause}, p.Settled antecedent.isEmpty →
    p.resolve antecedent = ⟨p, antecedent⟩
  | .word w, antecedent, h => by
    rw [Part.resolve, if_neg]
    rcases h with h | h <;> simp [h]
  | .literal _, _, _ => rfl
  | .list cs, _, h => by
    have hcs : ClausesSettled ([] : List Clause).isEmpty cs := h
    rw [Part.resolve, resolveFrom_eq cs hcs, List.nil_append]

end

/-- **A settled list stays as it is.** -/
theorem resolveClauses_eq {cs : List Clause} (h : ClausesSettled true cs) : resolveClauses cs = cs :=
  resolveFrom_eq cs h

/-! ## Places -/

mutual

/-- A part without the places of the clauses in it. -/
def Part.unlocated : Part → Part
  | .word w => .word w
  | .literal v => .literal v
  | .list cs => .list (clausesUnlocated cs)
termination_by structural p => p

/-- A clause without its place. -/
def Clause.unlocated : Clause → Clause
  | .mk _ ps => .mk .start (partsUnlocated ps)
termination_by structural c => c

/-- Parts without places. -/
def partsUnlocated : List Part → List Part
  | [] => []
  | p :: ps => p.unlocated :: partsUnlocated ps
termination_by structural ps => ps

/-- Clauses without their places. -/
def clausesUnlocated : List Clause → List Clause
  | [] => []
  | c :: cs => c.unlocated :: clausesUnlocated cs
termination_by structural cs => cs

end

theorem clausesUnlocated_eq_map (cs : List Clause) : clausesUnlocated cs = cs.map Clause.unlocated := by
  induction cs with
  | nil => rfl
  | cons c cs ih => rw [clausesUnlocated, ih, List.map_cons]

/-- What was resolved, without places. -/
def Resolved.unlocated {α : Type} (f : α → α) (r : Resolved α) : Resolved α :=
  ⟨f r.value, clausesUnlocated r.antecedent⟩

mutual

theorem unlocated_resolveFrom : ∀ (cs done : List Clause),
    resolveFrom (clausesUnlocated done) (clausesUnlocated cs) = clausesUnlocated (resolveFrom done cs)
  | [], _ => rfl
  | c :: cs, done => by
    rw [clausesUnlocated, resolveFrom, unlocated_resolveAfter c done, unlocated_resolveFrom cs]
    rfl

theorem unlocated_resolveAfter : ∀ (c : Clause) (done : List Clause),
    c.unlocated.resolveAfter (clausesUnlocated done) = clausesUnlocated (c.resolveAfter done)
  | .mk l ps, done => by
    rw [Clause.unlocated, Clause.resolveAfter, unlocated_resolveParts ps done, Clause.resolveAfter,
      clausesUnlocated_eq_map (_ ++ _), List.map_append, ← clausesUnlocated_eq_map]
    rfl

theorem unlocated_resolveParts : ∀ (ps : List Part) (antecedent : List Clause),
    resolveParts (clausesUnlocated antecedent) (partsUnlocated ps) =
      (resolveParts antecedent ps).unlocated partsUnlocated
  | [], _ => rfl
  | p :: ps, antecedent => by
    rw [partsUnlocated, resolveParts, Part.unlocated_resolve p antecedent]
    dsimp only [Resolved.unlocated]
    rw [unlocated_resolveParts ps]
    rfl

theorem Part.unlocated_resolve : ∀ (p : Part) (antecedent : List Clause),
    p.unlocated.resolve (clausesUnlocated antecedent) =
      (p.resolve antecedent).unlocated Part.unlocated
  | .word w, antecedent => by
    have hempty : (clausesUnlocated antecedent).isEmpty = antecedent.isEmpty := by
      cases antecedent <;> rfl
    rw [Part.unlocated, Part.resolve, Part.resolve, hempty]
    split_ifs <;> rfl
  | .literal _, _ => rfl
  | .list cs, antecedent => by
    rw [Part.unlocated, Part.resolve]
    exact congrArg (fun ds => (⟨.list ds, _⟩ : Resolved Part)) (unlocated_resolveFrom cs [])

end

/-- **Resolving does not look at places.** -/
theorem unlocated_resolveClauses (cs : List Clause) :
    resolveClauses (clausesUnlocated cs) = clausesUnlocated (resolveClauses cs) :=
  unlocated_resolveFrom cs []

end DanishProse

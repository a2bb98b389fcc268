/-
  Pronouns take the clauses before them, one clause after the other.

  The lists in brackets are resolved on their own; what is done to the other parts of a
  list can be said in two ways, each with a function for the lists in brackets.

  * `foldClauses` goes through the clauses from left to right with those that are
    finished (`Clause.joined`);
  * `Draft.edit` edits the list where it stands, with the indices of a clause and of a
    part.  A pronoun takes out all clauses before its own, which is the first one then;
  * whichever way a function calls itself for the lists in brackets, it is
    `resolveClauses` (`eq_foldClauses_iff`, `eq_edit_iff`).

  `ListStands` says how the clauses of the result stand for those there were, and
  `clausesHeads` lists the clauses at any depth, to count them.
-/
import Mathlib.Data.List.Basic
import Mathlib.Tactic.Common
import DanishProse.Prose.Pronoun

namespace DanishProse

/-! ## Lists in brackets -/

/-- A list stands in brackets in one of some clauses. -/
def NestedIn (inner cs : List Clause) : Prop :=
  ∃ c ∈ cs, .list inner ∈ c.parts

theorem sizeOf_lt_of_nestedIn {inner cs : List Clause} (h : NestedIn inner cs) : sizeOf inner < sizeOf cs := by
  obtain ⟨⟨l, ps⟩, hc, hinner⟩ := h
  have hclause := List.sizeOf_lt_of_mem hc
  have hpart := List.sizeOf_lt_of_mem hinner
  simp only [Clause.parts, Clause.mk.sizeOf_spec, Part.list.sizeOf_spec] at hclause hpart
  omega

/-- A function is `resolveClauses` on the lists in brackets among some parts. -/
def PartsAgree (f : List Clause → List Clause) (ps : List Part) : Prop :=
  ∀ inner, .list inner ∈ ps → f inner = resolveClauses inner

/-- A function is `resolveClauses` on the lists in brackets in some clauses. -/
def AgreesIn (f : List Clause → List Clause) (cs : List Clause) : Prop :=
  ∀ inner, NestedIn inner cs → f inner = resolveClauses inner

section
variable {f : List Clause → List Clause} {p : Part} {ps : List Part} {c : Clause} {cs : List Clause}

theorem PartsAgree.tail (h : PartsAgree f (p :: ps)) : PartsAgree f ps :=
  fun inner hinner => h inner (List.mem_cons_of_mem _ hinner)

theorem AgreesIn.head (h : AgreesIn f (c :: cs)) : PartsAgree f c.parts :=
  fun inner hinner => h inner ⟨c, List.mem_cons_self, hinner⟩

theorem AgreesIn.tail (h : AgreesIn f (c :: cs)) : AgreesIn f cs :=
  fun inner ⟨d, hd, hinner⟩ => h inner ⟨d, List.mem_cons_of_mem _ hd, hinner⟩

end

/-- A function that calls itself for the lists in brackets only, and is `resolveClauses` if that is
    what it calls, is `resolveClauses`. -/
theorem eq_resolveClauses_iff {F : (List Clause → List Clause) → List Clause → List Clause}
    (hF : ∀ f cs, AgreesIn f cs → F f cs = resolveClauses cs) (f : List Clause → List Clause) :
    (∀ cs, f cs = F f cs) ↔ f = resolveClauses := by
  constructor
  · intro hf
    -- by the size of the list: those in its brackets are smaller
    have hagree (n : Nat) : ∀ cs, sizeOf cs < n → f cs = resolveClauses cs := by
      induction n with
      | zero => exact fun cs h => absurd h (Nat.not_lt_zero _)
      | succ n ih =>
        intro cs h
        rw [hf, hF f cs]
        intro inner hinner
        exact ih inner (Nat.lt_of_lt_of_le (sizeOf_lt_of_nestedIn hinner) (Nat.le_of_lt_succ h))
    exact funext fun cs => hagree _ cs (Nat.lt_succ_self _)
  · rintro rfl cs
    exact (hF _ cs fun _ _ => rfl).symm

/-! ## Clause by clause -/

/-- The part is a pronoun. -/
def Part.isPronoun : Part → Bool
  | .word w => DanishProse.isPronoun w
  | _ => false

/-- A part with its list put through a function, if it is one. -/
def Part.mapList (f : List Clause → List Clause) : Part → Part
  | .list cs => .list (f cs)
  | p => p

/-- A clause with its lists put through a function. -/
def Clause.mapLists (f : List Clause → List Clause) : Clause → Clause
  | .mk l ps => .mk l (ps.map (Part.mapList f))

/-- Finished clauses with one more.  If there are any, and the clause has a pronoun, they become a
    list in place of the first pronoun, and the clause is then the only one. -/
def Clause.joined (done : List Clause) : Clause → List Clause
  | .mk l ps =>
    if !done.isEmpty && ps.any Part.isPronoun then
      [.mk l (ps.set (ps.findIdx Part.isPronoun) (.list done))]
    else done ++ [.mk l ps]

/-- The clauses of a list taken in from left to right, their own lists put through a function. -/
def foldClauses (f : List Clause → List Clause) (cs : List Clause) : List Clause :=
  cs.foldl (fun done c => (c.mapLists f).joined done) []

theorem Part.isPronoun_mapList (f : List Clause → List Clause) (p : Part) :
    (p.mapList f).isPronoun = p.isPronoun := by
  cases p <;> rfl

section
variable {f : List Clause → List Clause} {done : List Clause}

/-- A pronoun takes what is before it; any other part leaves it. -/
theorem Part.resolve_mapped {p : Part} {ps : List Part} (h : PartsAgree f (p :: ps)) :
    p.resolve done =
      if !done.isEmpty && p.isPronoun then ⟨.list done, []⟩ else ⟨p.mapList f, done⟩ := by
  cases p with
  | word w =>
    rw [Part.resolve, Bool.and_comm]
    rfl
  | literal v =>
    have hnot : (Part.literal v).isPronoun = false := rfl
    rw [hnot, Bool.and_false]
    rfl
  | list cs =>
    have hnot : (Part.list cs).isPronoun = false := rfl
    rw [hnot, Bool.and_false, if_neg Bool.false_ne_true, Part.mapList, h cs List.mem_cons_self]
    rfl

/-- The first of the pronouns takes what is before the clause, if there is anything. -/
theorem resolveParts_mapped {ps : List Part} (h : PartsAgree f ps) :
    resolveParts done ps =
      let qs := ps.map (Part.mapList f)
      if !done.isEmpty && qs.any Part.isPronoun then
        ⟨qs.set (qs.findIdx Part.isPronoun) (.list done), []⟩
      else ⟨qs, done⟩ := by
  induction ps generalizing done with
  | nil =>
    dsimp only
    rw [List.map_nil, List.any_nil, Bool.and_false]
    rfl
  | cons p ps ih =>
    have hps (rest : List Clause) := @ih rest h.tail
    rw [resolveParts, Part.resolve_mapped h]
    cases htaken : !done.isEmpty && p.isPronoun with
    | true =>
      obtain ⟨hdone, hpronoun⟩ := Bool.and_eq_true_iff.1 htaken
      simp only [if_true, hps, List.isEmpty_nil, Bool.not_true, Bool.false_and, Bool.false_eq_true, if_false,
        List.map_cons, List.any_cons, List.findIdx_cons, Part.isPronoun_mapList, hpronoun, hdone, Bool.true_or,
        Bool.and_self, cond_true, List.set_cons_zero]
    | false =>
      simp only [Bool.false_eq_true, if_false, hps, List.map_cons, List.any_cons, List.findIdx_cons,
        Part.isPronoun_mapList, Bool.and_or_distrib_left, htaken, Bool.false_or]
      split_ifs with hany
      · have hpronoun : p.isPronoun = false := by
          rw [(Bool.and_eq_true_iff.1 hany).1, Bool.true_and] at htaken
          exact htaken
        rw [hpronoun, cond_false, List.set_cons_succ]
      · rfl

theorem Clause.resolveAfter_mapped {c : Clause} (h : PartsAgree f c.parts) :
    c.resolveAfter done = (c.mapLists f).joined done := by
  obtain ⟨l, ps⟩ := c
  have hps : PartsAgree f ps := h
  rw [Clause.resolveAfter, resolveParts_mapped hps, Clause.mapLists, Clause.joined]
  dsimp only
  split_ifs <;> rfl

theorem resolveFrom_mapped {cs : List Clause} (h : AgreesIn f cs) :
    resolveFrom done cs = cs.foldl (fun done c => (c.mapLists f).joined done) done := by
  induction cs generalizing done with
  | nil => rfl
  | cons c cs ih =>
    rw [resolveFrom, Clause.resolveAfter_mapped h.head]
    exact ih h.tail

end

/-- **What takes the clauses in one after the other resolves the pronouns.** -/
theorem eq_foldClauses_iff (f : List Clause → List Clause) :
    (∀ cs, f cs = foldClauses f cs) ↔ f = resolveClauses :=
  eq_resolveClauses_iff (fun _ _ h => (resolveFrom_mapped h).symm) f

/-! ## In place -/

/-- A clause list that is edited, and the index of the clause at hand. -/
structure Draft where
  clauses : List Clause
  here : Nat

/-- A clause with another part in place of one. -/
def Clause.setPart (k : Nat) (p : Part) : Clause → Clause
  | .mk l ps => .mk l (ps.set k p)

namespace Draft

/-- Puts a part in place of one of the clause at hand. -/
def setPart (d : Draft) (k : Nat) (p : Part) : Draft :=
  { d with clauses := d.clauses.modify d.here (Clause.setPart k p) }

/-- The clauses before the one at hand are taken out. -/
def drained (d : Draft) : Draft :=
  ⟨d.clauses.drop d.here, 0⟩

/-- The parts of the clause at hand. -/
def parts (d : Draft) : List Part :=
  (d.clauses[d.here]?.map Clause.parts).getD []

/-- Edits a part of the clause at hand: a list is put through a function, and a pronoun becomes a list
    of the clauses before, which are taken out. -/
def editPart (f : List Clause → List Clause) (d : Draft) (k : Nat) : Draft :=
  match d.parts[k]? with
  | some (.list inner) => d.setPart k (.list (f inner))
  | some (.word w) =>
    if isPronoun w ∧ 0 < d.here then d.drained.setPart k (.list (d.clauses.take d.here)) else d
  | _ => d

/-- Edits the parts of the clause at hand, one after the other. -/
def editParts (f : List Clause → List Clause) (d : Draft) : Draft :=
  (List.range d.parts.length).foldl (editPart f) d

/-- How many clauses there are from the one at hand on. -/
def left (d : Draft) : Nat :=
  d.clauses.length - d.here

theorem left_editPart (f : List Clause → List Clause) (d : Draft) (k : Nat) : (d.editPart f k).left = d.left := by
  unfold editPart left
  split
  · simp [setPart]
  · split_ifs
    · simp [setPart, drained]
    · rfl
  · rfl

theorem left_editParts (f : List Clause → List Clause) (d : Draft) : (d.editParts f).left = d.left := by
  unfold editParts
  generalize List.range d.parts.length = ks
  induction ks generalizing d with
  | nil => rfl
  | cons k ks ih => rw [List.foldl_cons, ih, left_editPart]

/-- Edits the clauses from the one at hand on. -/
def edit (f : List Clause → List Clause) (d : Draft) : List Clause :=
  if d.here < d.clauses.length then
    let e := d.editParts f
    edit f ⟨e.clauses, e.here + 1⟩
  else d.clauses
termination_by d.left
decreasing_by
  have := d.left_editParts f
  simp only [left] at *
  omega

section
variable {f : List Clause → List Clause} {before rest : List Clause} {l : Location} {p q : Part}
  {ps qs : List Part}

/-- A clause at hand, between others. -/
def between (before : List Clause) (c : Clause) (rest : List Clause) : Draft :=
  ⟨before ++ c :: rest, before.length⟩

theorem parts_between : (between before (.mk l ps) rest).parts = ps := by
  simp [between, parts, Clause.parts]

theorem setPart_between : (between before (.mk l (qs ++ p :: ps)) rest).setPart qs.length q =
    between before (.mk l (qs ++ q :: ps)) rest := by
  simp [between, setPart, Clause.setPart, List.modify_eq_set_getElem?]

theorem drained_between {c : Clause} : (between before c rest).drained = between [] c rest := by
  simp [between, drained]

/-- An edit does to a part what resolving it does. -/
theorem editPart_between (h : PartsAgree f (p :: ps)) :
    (between before (.mk l (qs ++ p :: ps)) rest).editPart f qs.length =
      between (p.resolve before).antecedent (.mk l (qs ++ (p.resolve before).value :: ps)) rest := by
  have hat : (qs ++ p :: ps)[qs.length]? = some p := by simp
  rw [editPart, parts_between, hat]
  cases p with
  | word w =>
    dsimp only
    have hbefore : (between before (.mk l (qs ++ .word w :: ps)) rest).here = before.length := rfl
    rw [drained_between, setPart_between, Part.resolve, hbefore]
    by_cases hword : isPronoun w = true ∧ 0 < before.length
    · have htaken : (isPronoun w && !before.isEmpty) = true := by
        simpa [List.length_pos_iff] using hword
      rw [if_pos hword, if_pos htaken]
      simp [between]
    · have hkept : ¬(isPronoun w && !before.isEmpty) = true := by
        simpa [List.length_pos_iff] using hword
      rw [if_neg hword, if_neg hkept]
  | literal v => rfl
  | list inner =>
    dsimp only
    rw [setPart_between, h inner List.mem_cons_self]
    rfl

theorem foldl_editPart_between (h : PartsAgree f ps) :
    (List.range' qs.length ps.length).foldl (editPart f) (between before (.mk l (qs ++ ps)) rest) =
      between (resolveParts before ps).antecedent (.mk l (qs ++ (resolveParts before ps).value)) rest := by
  induction ps generalizing before qs with
  | nil => rfl
  | cons p ps ih =>
    have hrest := @ih (p.resolve before).antecedent (qs ++ [(p.resolve before).value]) h.tail
    rw [List.length_append, List.length_singleton, List.append_assoc, List.append_assoc] at hrest
    rw [List.length_cons, List.range'_succ, List.foldl_cons, editPart_between h]
    exact hrest

/-- Edits of its parts resolve the clause at hand. -/
theorem editParts_between {c : Clause} (h : PartsAgree f c.parts) :
    (between before c rest).editParts f =
      ⟨c.resolveAfter before ++ rest, (c.resolveAfter before).length - 1⟩ := by
  obtain ⟨l, ps⟩ := c
  have hedits := @foldl_editPart_between f before rest l ps [] h
  rw [List.length_nil, List.nil_append, List.nil_append] at hedits
  rw [editParts, parts_between, List.range_eq_range', hedits, Clause.resolveAfter]
  simp [between]

/-- Edits from a clause on resolve the list from there. -/
theorem edit_eq {done cs : List Clause} (h : AgreesIn f cs) :
    edit f ⟨done ++ cs, done.length⟩ = resolveFrom done cs := by
  induction cs generalizing done with
  | nil =>
    rw [edit, if_neg (by simp)]
    exact List.append_nil done
  | cons c cs ih =>
    have hedits := @editParts_between f done cs c h.head
    -- the clause at hand is now the last one that is finished
    have hlast : (c.resolveAfter done).length - 1 + 1 = (c.resolveAfter done).length := by
      obtain ⟨l, ps⟩ := c
      simp [Clause.resolveAfter]
    rw [between] at hedits
    rw [edit, if_pos (by simp), hedits]
    dsimp only
    rw [hlast, ih h.tail, resolveFrom]

end

end Draft

/-- **What edits the list in place, clause by clause and part by part, resolves the pronouns.** -/
theorem eq_edit_iff (f : List Clause → List Clause) :
    (∀ cs, f cs = Draft.edit f ⟨cs, 0⟩) ↔ f = resolveClauses :=
  eq_resolveClauses_iff (fun _ _ h => Draft.edit_eq h) f

/-! ## What becomes of the clauses -/

mutual

/-- Clauses of a result stand for the ones there were: what a clause has in pronouns comes right
    before it. -/
inductive ListStands : List Clause → List Clause → Prop
  | nil : ListStands [] []
  | cons {before cs ds : List Clause} {l : Location} {ps qs : List Part} (parts : PartsStand before ps qs)
      (rest : ListStands cs ds) : ListStands (before ++ .mk l ps :: cs) (.mk l qs :: ds)

/-- Parts of a result stand for the ones there were, and for the clauses before, if a pronoun took
    them. -/
inductive PartsStand : List Clause → List Part → List Part → Prop
  | nil : PartsStand [] [] []
  | word {before : List Clause} {w : String} {ps qs : List Part} (rest : PartsStand before ps qs) :
      PartsStand before (.word w :: ps) (.word w :: qs)
  | literal {before : List Clause} {v : Literal} {ps qs : List Part} (rest : PartsStand before ps qs) :
      PartsStand before (.literal v :: ps) (.literal v :: qs)
  | list {before cs ds : List Clause} {ps qs : List Part} (inner : ListStands cs ds)
      (rest : PartsStand before ps qs) : PartsStand before (.list cs :: ps) (.list ds :: qs)
  | pronoun {before ds : List Clause} {w : String} {ps qs : List Part} (isPronoun : isPronoun w = true)
      (some : ds ≠ []) (inner : ListStands before ds) (rest : PartsStand [] ps qs) :
      PartsStand before (.word w :: ps) (.list ds :: qs)

end

theorem ListStands.append {cs ds cs' ds' : List Clause} (h : ListStands cs ds) (h' : ListStands cs' ds') :
    ListStands (cs ++ cs') (ds ++ ds') := by
  induction ds generalizing cs with
  | nil =>
    cases h
    exact h'
  | cons d ds ih =>
    cases h with
    | @cons before cs _ l ps qs parts rest =>
      rw [List.append_assoc]
      exact .cons parts (ih rest)

mutual

theorem listStands_resolveFrom : ∀ (cs : List Clause) {orig done : List Clause}, ListStands orig done →
    ListStands (orig ++ cs) (resolveFrom done cs)
  | [], orig, _, h => by
    rw [List.append_nil]
    exact h
  | c :: cs, orig, done, h => by
    have hc := listStands_resolveFrom cs (listStands_resolveAfter c h)
    rw [List.append_assoc] at hc
    exact hc

theorem listStands_resolveAfter : ∀ (c : Clause) {orig done : List Clause}, ListStands orig done →
    ListStands (orig ++ [c]) (c.resolveAfter done)
  | .mk l ps, orig, done, h => by
    obtain ⟨outside, before, rfl, houtside, hparts⟩ := partsStand_resolveParts ps h
    rw [List.append_assoc]
    exact houtside.append (.cons hparts .nil)

/-- The clauses that are left stay outside; the ones before the parts are in a pronoun. -/
theorem partsStand_resolveParts : ∀ (ps : List Part) {orig done : List Clause}, ListStands orig done →
    ∃ outside before, orig = outside ++ before ∧
      ListStands outside (resolveParts done ps).antecedent ∧ PartsStand before ps (resolveParts done ps).value
  | [], orig, done, h => ⟨orig, [], (List.append_nil orig).symm, h, .nil⟩
  | .word w :: ps, orig, done, h => by
    rw [resolveParts, Part.resolve]
    split_ifs with htaken
    · -- nothing is left for the parts behind
      obtain ⟨outside, before, hnil, houtside, hparts⟩ := partsStand_resolveParts ps ListStands.nil
      obtain ⟨rfl, rfl⟩ := List.append_eq_nil_iff.1 hnil.symm
      obtain ⟨hword, hdone⟩ := Bool.and_eq_true_iff.1 htaken
      have hsome : done ≠ [] := by
        simpa using hdone
      exact ⟨[], orig, rfl, houtside, .pronoun hword hsome h hparts⟩
    · obtain ⟨outside, before, rfl, houtside, hparts⟩ := partsStand_resolveParts ps h
      exact ⟨outside, before, rfl, houtside, .word hparts⟩
  | .literal v :: ps, orig, done, h => by
    obtain ⟨outside, before, rfl, houtside, hparts⟩ := partsStand_resolveParts ps h
    exact ⟨outside, before, rfl, houtside, .literal hparts⟩
  | .list cs :: ps, orig, done, h => by
    obtain ⟨outside, before, rfl, houtside, hparts⟩ := partsStand_resolveParts ps h
    exact ⟨outside, before, rfl, houtside, .list (listStands_resolveFrom cs .nil) hparts⟩

end

/-- **The clauses of the result stand for those of the list.** -/
theorem listStands_resolveClauses (cs : List Clause) : ListStands cs (resolveClauses cs) :=
  listStands_resolveFrom cs .nil

/-! ## Counting clauses -/

/-- A part with nothing in its list; a pronoun is such a list too. -/
def Part.blank : Part → Part
  | .word w => if DanishProse.isPronoun w then .list [] else .word w
  | .literal v => .literal v
  | .list _ => .list []

mutual

/-- The clauses in a part, at any depth. -/
def Part.heads : Part → List Clause
  | .word _ | .literal _ => []
  | .list cs => clausesHeads cs
termination_by structural p => p

/-- A clause and the ones in its parts, at any depth. -/
def Clause.heads : Clause → List Clause
  | .mk l ps => .mk l (ps.map Part.blank) :: partsHeads ps
termination_by structural c => c

/-- The clauses in parts, at any depth. -/
def partsHeads : List Part → List Clause
  | [] => []
  | p :: ps => p.heads ++ partsHeads ps
termination_by structural ps => ps

/-- Clauses and the ones in their parts, at any depth, each with its parts blank. -/
def clausesHeads : List Clause → List Clause
  | [] => []
  | c :: cs => c.heads ++ clausesHeads cs
termination_by structural cs => cs

end

theorem clausesHeads_append (cs ds : List Clause) :
    clausesHeads (cs ++ ds) = clausesHeads cs ++ clausesHeads ds := by
  induction cs with
  | nil => rfl
  | cons c cs ih => rw [List.cons_append, clausesHeads, clausesHeads, ih, List.append_assoc]

mutual

theorem ListStands.perm : ∀ {cs ds : List Clause}, ListStands cs ds → (clausesHeads ds).Perm (clausesHeads cs)
  | _, _, .nil => .nil
  | _, _, @ListStands.cons before cs ds l ps qs parts rest => by
    obtain ⟨hblank, hparts⟩ := PartsStand.perm parts
    rw [clausesHeads_append]
    simp only [clausesHeads, Clause.heads, hblank, List.cons_append]
    have hclauses := hparts.append rest.perm
    rw [List.append_assoc] at hclauses
    exact (hclauses.cons _).trans List.perm_middle.symm

theorem PartsStand.perm : ∀ {before : List Clause} {ps qs : List Part}, PartsStand before ps qs →
    qs.map Part.blank = ps.map Part.blank ∧ (partsHeads qs).Perm (clausesHeads before ++ partsHeads ps)
  | _, _, _, .nil => ⟨rfl, .nil⟩
  | _, _, _, .word rest => by
    obtain ⟨hblank, hperm⟩ := PartsStand.perm rest
    exact ⟨by rw [List.map_cons, hblank, List.map_cons], hperm⟩
  | _, _, _, .literal rest => by
    obtain ⟨hblank, hperm⟩ := PartsStand.perm rest
    exact ⟨by rw [List.map_cons, hblank, List.map_cons], hperm⟩
  | _, _, _, .list inner rest => by
    obtain ⟨hblank, hperm⟩ := PartsStand.perm rest
    refine ⟨by rw [List.map_cons, hblank, List.map_cons, Part.blank, Part.blank], ?_⟩
    exact (inner.perm.append hperm).trans (List.perm_append_comm_assoc _ _ _)
  | _, _, _, .pronoun hword _ inner rest => by
    obtain ⟨hblank, hperm⟩ := PartsStand.perm rest
    refine ⟨by rw [List.map_cons, hblank, List.map_cons, Part.blank, Part.blank, if_pos hword], ?_⟩
    exact inner.perm.append hperm

end

/-- **Pronouns take the clauses before them, one clause after the other.**  `resolveClauses` is
    what goes through a list from left to right, and what edits it in place: a function that calls
    itself for the lists in brackets in either way is no other.  The clauses of the result stand for
    those of the list, each for one. -/
theorem resolveClauses_fold (f : List Clause → List Clause) (cs : List Clause) :
    ((∀ ds, f ds = foldClauses f ds) ↔ f = resolveClauses) ∧
      ((∀ ds, f ds = Draft.edit f ⟨ds, 0⟩) ↔ f = resolveClauses) ∧
      ListStands cs (resolveClauses cs) ∧ (clausesHeads (resolveClauses cs)).Perm (clausesHeads cs) :=
  ⟨eq_foldClauses_iff f, eq_edit_iff f, listStands_resolveClauses cs, (listStands_resolveClauses cs).perm⟩

/-- A pronoun takes what a pronoun before it has taken. -/
example : clausesText (resolveClauses [.mk .start [.word "A"], .mk .start [.word "Den", .word "B"],
    .mk .start [.word "det", .word "C"]]) = "((A) B) C" := by
  cbv

end DanishProse

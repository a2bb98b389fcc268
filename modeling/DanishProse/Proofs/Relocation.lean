/-
  Places in a document make no difference to its program.

  * `Sentence.unlocated`, `Definition.unlocated` and `Document.unlocated` forget all
    places;
  * what is checked without places comes to the same, without places
    (`Tree.ofDocument_unlocated`);
  * code has no places (`Tree.program_unlocated`).
-/
import DanishProse.Bytecode.Generation
import DanishProse.Proofs.Pronouns
import DanishProse.Typed.Checking

namespace DanishProse

/-! ## Documents without places -/

mutual

/-- A sentence without places. -/
def Sentence.unlocated : Sentence → Sentence
  | .declare name typeName _ => .declare name typeName .start
  | .express cs => .express (clausesUnlocated cs)
  | .giveBack cs => .giveBack (clausesUnlocated cs)
  | .when cs body => .when (clausesUnlocated cs) (sentencesUnlocated body)
  | .whenElse cs body otherwise =>
    .whenElse (clausesUnlocated cs) (sentencesUnlocated body) (sentencesUnlocated otherwise)
  | .loop cs body => .loop (clausesUnlocated cs) (sentencesUnlocated body)
termination_by structural s => s

/-- Sentences without places. -/
def sentencesUnlocated : List Sentence → List Sentence
  | [] => []
  | s :: ss => s.unlocated :: sentencesUnlocated ss
termination_by structural ss => ss

end

/-- A definition without places. -/
def Definition.unlocated (d : Definition) : Definition :=
  { d with body := sentencesUnlocated d.body, location := .start }

/-- A document without places. -/
def Document.unlocated (d : Document) : Document :=
  ⟨d.definitions.map Definition.unlocated⟩

/-! ## Reports without places -/

/-- A report without its place. -/
def Report.unlocated (r : Report) : Report :=
  { r with location := .start }

/-- A value and reports, without places. -/
def Checked.unlocated {α : Type} (g : α → α) (c : Checked α) : Checked α :=
  ⟨g c.value, c.reports.map Report.unlocated⟩

/-- Going on without places is going on, without places. -/
theorem Checked.unlocated_bind {α β : Type} {g : α → α} {h : β → β} {c c' : Checked α}
    {f f' : α → Checked β} (hc : c' = c.unlocated g) (hf : f' (g c.value) = (f c.value).unlocated h) :
    (c' >>= f') = (c >>= f).unlocated h := by
  subst hc
  have hvalue : (f' (g c.value)).value = h (f c.value).value := congrArg Checked.value hf
  have hreports : (f' (g c.value)).reports = (f c.value).reports.map Report.unlocated :=
    congrArg Checked.reports hf
  change Checked.mk (f' (g c.value)).value (c.reports.map Report.unlocated ++ (f' (g c.value)).reports) =
    Checked.mk (h (f c.value).value) ((c.reports ++ (f c.value).reports).map Report.unlocated)
  rw [hvalue, hreports, List.map_append]

theorem Checked.isEmpty_unlocated {α : Type} (g : α → α) (c : Checked α) :
    (c.unlocated g).reports.isEmpty = c.reports.isEmpty := by
  rw [Checked.unlocated, List.isEmpty_map]

/-! ## Clauses -/

/-- A function without its place. -/
def Function.unlocated (f : Function) : Function :=
  { f with location := .start }

theorem lookupType_unlocated (name : String) (l : Location) :
    lookupType name .start = (lookupType name l).unlocated id := by
  unfold lookupType
  cases Ty.named? name <;> rfl

theorem lookupFunction_unlocated (fs : List Function) (wanted : List Wanted) :
    lookupFunction (fs.map Function.unlocated) wanted =
      (lookupFunction fs wanted).map fun found => (found.1.unlocated, found.2) := by
  rw [lookupFunction, lookupFunction, List.zipIdx_map, List.find?_map]
  rfl

theorem assign_unlocated (value target : Expression) (l : Location) :
    assign value target .start = (assign value target l).unlocated id := by
  unfold assign
  cases target
  case read slot ty =>
    dsimp only
    split_ifs <;> rfl
  all_goals rfl

theorem callFirst_unlocated (fs : List Function) (wanted : List Wanted) (arguments : List Expression)
    (l : Location) :
    callFirst (fs.map Function.unlocated) wanted arguments .start =
      (callFirst fs wanted arguments l).unlocated id := by
  unfold callFirst
  rw [lookupFunction_unlocated]
  cases lookupFunction fs wanted with
  | none => rfl
  | some found =>
    obtain ⟨f, index⟩ := found
    dsimp only [Option.map_some, Function.unlocated]
    split
    · exact assign_unlocated _ _ l
    · rfl

theorem resolveTerms_unlocated (fs : List Function) (terms : List Term) (l : Location) :
    resolveTerms (fs.map Function.unlocated) terms .start = (resolveTerms fs terms l).unlocated id := by
  unfold resolveTerms
  dsimp only
  split
  · rfl
  · rfl
  · split_ifs
    · rfl
    · exact callFirst_unlocated fs _ _ l

section
variable (fs : List Function) (locals : List Local)

mutual

theorem Part.lookup_unlocated : ∀ (p : Part),
    p.unlocated.lookup (fs.map Function.unlocated) locals = (p.lookup fs locals).unlocated id
  | .word text => by
    rw [Part.unlocated, Part.lookup, Part.lookup]
    cases lookupLocal locals text <;> rfl
  | .literal _ => rfl
  | .list cs => Checked.unlocated_bind (lookupEach_unlocated cs) rfl

theorem lookupParts_unlocated : ∀ (ps : List Part),
    lookupParts (fs.map Function.unlocated) locals (partsUnlocated ps) =
      (lookupParts fs locals ps).unlocated id
  | [] => rfl
  | p :: ps =>
    Checked.unlocated_bind (Part.lookup_unlocated p)
      (Checked.unlocated_bind (lookupParts_unlocated ps) rfl)

theorem Clause.lookup_unlocated : ∀ (c : Clause),
    c.unlocated.lookup (fs.map Function.unlocated) locals = (c.lookup fs locals).unlocated id
  | .mk l ps =>
    Checked.unlocated_bind (lookupParts_unlocated ps) (resolveTerms_unlocated fs _ l)

theorem lookupEach_unlocated : ∀ (cs : List Clause),
    lookupEach (fs.map Function.unlocated) locals (clausesUnlocated cs) =
      (lookupEach fs locals cs).unlocated id
  | [] => rfl
  | c :: cs =>
    Checked.unlocated_bind (Clause.lookup_unlocated c)
      (Checked.unlocated_bind (lookupEach_unlocated cs) rfl)

end

theorem lookupClauses_unlocated (cs : List Clause) :
    lookupClauses (fs.map Function.unlocated) locals (clausesUnlocated cs) =
      (lookupClauses fs locals cs).unlocated id :=
  Checked.unlocated_bind (lookupEach_unlocated fs locals cs) rfl

end

/-! ## Bodies -/

section
variable (fs : List Function)

mutual

theorem Sentence.check_unlocated : ∀ (s : Sentence) (locals : List Local),
    s.unlocated.check (fs.map Function.unlocated) locals = (s.check fs locals).unlocated id
  | .declare _ _ l, _ => Checked.unlocated_bind (lookupType_unlocated _ l) rfl
  | .express cs, locals => Checked.unlocated_bind (lookupClauses_unlocated fs locals cs) rfl
  | .giveBack cs, locals => Checked.unlocated_bind (lookupClauses_unlocated fs locals cs) rfl
  | .when cs body, locals =>
    Checked.unlocated_bind (lookupClauses_unlocated fs locals cs)
      (Checked.unlocated_bind (checkSentences_unlocated body locals) rfl)
  | .whenElse cs body otherwise, locals =>
    Checked.unlocated_bind (lookupClauses_unlocated fs locals cs)
      (Checked.unlocated_bind (checkSentences_unlocated body locals)
        (Checked.unlocated_bind (checkSentences_unlocated otherwise _) rfl))
  | .loop cs body, locals =>
    Checked.unlocated_bind (lookupClauses_unlocated fs locals cs)
      (Checked.unlocated_bind (checkSentences_unlocated body locals) rfl)

theorem checkSentences_unlocated : ∀ (ss : List Sentence) (locals : List Local),
    checkSentences (fs.map Function.unlocated) locals (sentencesUnlocated ss) =
      (checkSentences fs locals ss).unlocated id
  | [], _ => rfl
  | s :: ss, locals =>
    Checked.unlocated_bind (Sentence.check_unlocated s locals)
      (Checked.unlocated_bind (checkSentences_unlocated ss _) rfl)

end

theorem Function.fill_unlocated (f : Function) (body : List Sentence) :
    f.unlocated.fill (fs.map Function.unlocated) (sentencesUnlocated body) =
      (f.fill fs body).unlocated Function.unlocated := by
  refine Checked.unlocated_bind (checkSentences_unlocated fs body f.parameterLocals) ?_
  dsimp only [id, Function.unlocated]
  split <;> rfl

theorem fillAll_unlocated (own : List (Function × List Sentence)) :
    fillAll (fs.map Function.unlocated) (own.map (Prod.map Function.unlocated sentencesUnlocated)) =
      (fillAll fs own).unlocated (List.map Function.unlocated) := by
  induction own with
  | nil => rfl
  | cons entry own ih =>
    obtain ⟨f, body⟩ := entry
    rw [List.map_cons, Prod.map_apply, fillAll, fillAll, Function.fill_unlocated, ih]
    dsimp only
    rw [Checked.isEmpty_unlocated]
    split_ifs
    · rfl
    · simp only [Checked.unlocated, List.map_map, List.map_cons]
      rfl

end

/-! ## Signatures -/

theorem lookupTypes_unlocated (l : Location) (names : List String) :
    lookupTypes .start names = (lookupTypes l names).unlocated id := by
  induction names with
  | nil => rfl
  | cons name names ih =>
    exact Checked.unlocated_bind (lookupType_unlocated name l) (Checked.unlocated_bind ih rfl)

theorem Function.sign_unlocated (f : Function) (symbol : Nat) :
    f.unlocated.sign symbol = (f.sign symbol).unlocated Function.unlocated :=
  Checked.unlocated_bind (lookupType_unlocated _ f.location)
    (Checked.unlocated_bind (lookupTypes_unlocated f.location _) rfl)

theorem signAll_unlocated (fs : List Function) (symbol : Nat) :
    signAll symbol (fs.map Function.unlocated) =
      (signAll symbol fs).unlocated (List.map Function.unlocated) := by
  induction fs generalizing symbol with
  | nil => rfl
  | cons f fs ih =>
    have huser : f.unlocated.isUser = f.isUser := rfl
    rw [List.map_cons, signAll, signAll, Function.sign_unlocated, huser]
    dsimp only
    rw [Checked.isEmpty_unlocated, ih]
    cases (f.sign symbol).reports.isEmpty <;> rfl

/-! ## Trees -/

/-- A tree without the places of its functions. -/
def Tree.unlocated (t : Tree) : Tree :=
  ⟨t.functions.map Function.unlocated⟩

theorem Function.builtin_unlocated (short : String) (result : Ty) (role : FunctionRole) :
    (Function.builtin short result role).unlocated = Function.builtin short result role := rfl

theorem builtins_unlocated : builtins.map Function.unlocated = builtins := by
  simp only [builtins, intrinsics, assignment, printers, List.cons_append, List.nil_append, List.map_cons,
    List.map_nil, Function.builtin_unlocated]

theorem Document.declared_unlocated (d : Document) :
    d.unlocated.declared = d.declared.map Function.unlocated := by
  rw [Document.declared, Document.declared, List.map_append, builtins_unlocated, Document.unlocated,
    List.map_map, List.map_map]
  rfl

/-- The tree of signed functions, all but the first `n` of which have these bodies. -/
def Tree.ofSigned (n : Nat) (signed : Checked (List Function)) (bodies : List (List Sentence)) :
    Checked Tree :=
  if signed.reports.isEmpty then
    let filled := fillAll signed.value ((signed.value.drop n).zip bodies)
    ⟨⟨signed.value.take n ++ filled.value⟩, filled.reports⟩
  else ⟨⟨signed.value⟩, signed.reports⟩

theorem Tree.ofDocument_eq_ofSigned (d : Document) : Tree.ofDocument true d =
    Tree.ofSigned builtins.length (signAll 1 d.declared) (d.definitions.map Definition.body) :=
  if_pos rfl

theorem Tree.ofSigned_unlocated (n : Nat) (signed : Checked (List Function)) (bodies : List (List Sentence)) :
    Tree.ofSigned n (signed.unlocated (List.map Function.unlocated)) (bodies.map sentencesUnlocated) =
      (Tree.ofSigned n signed bodies).unlocated Tree.unlocated := by
  have hown : ((signed.value.map Function.unlocated).drop n).zip (bodies.map sentencesUnlocated) =
      ((signed.value.drop n).zip bodies).map (Prod.map Function.unlocated sentencesUnlocated) := by
    rw [← List.map_drop, List.zip_map]
  rw [Tree.ofSigned, Tree.ofSigned, Checked.isEmpty_unlocated]
  cases signed.reports.isEmpty with
  | false => rfl
  | true =>
    simp only [Checked.unlocated, Tree.unlocated, if_true]
    rw [hown, fillAll_unlocated]
    simp only [Checked.unlocated, List.map_append, List.map_take]

/-- **A document is checked without looking at its places.** -/
theorem Tree.ofDocument_unlocated (d : Document) :
    Tree.ofDocument true d.unlocated = (Tree.ofDocument true d).unlocated Tree.unlocated := by
  have hbodies : d.unlocated.definitions.map Definition.body =
      (d.definitions.map Definition.body).map sentencesUnlocated := by
    rw [Document.unlocated, List.map_map, List.map_map]
    rfl
  rw [Tree.ofDocument_eq_ofSigned, Tree.ofDocument_eq_ofSigned, Document.declared_unlocated, signAll_unlocated, hbodies, Tree.ofSigned_unlocated]

/-! ## Code -/

section
variable (fs : List Function)

mutual

theorem Expression.code_unlocated : ∀ (e : Expression),
    e.code (fs.map Function.unlocated) = e.code fs
  | .literal _ => rfl
  | .read _ _ => rfl
  | .assign slot e => by rw [Expression.code, Expression.code, Expression.code_unlocated e]
  | .call index arguments ty => by
    rw [Expression.code, Expression.code, argumentsCode_unlocated arguments, List.getElem?_map]
    cases fs[index]? <;> rfl
  | .sequence items _ => by rw [Expression.code, Expression.code, sequenceCode_unlocated items]
  | .unresolved _ => rfl

theorem argumentsCode_unlocated : ∀ (es : List Expression),
    argumentsCode (fs.map Function.unlocated) es = argumentsCode fs es
  | [] => rfl
  | e :: es => by
    rw [argumentsCode, argumentsCode, Expression.code_unlocated e, argumentsCode_unlocated es]

theorem sequenceCode_unlocated : ∀ (es : List Expression),
    sequenceCode (fs.map Function.unlocated) es = sequenceCode fs es
  | [] => rfl
  | [e] => by rw [sequenceCode, sequenceCode, Expression.code_unlocated e]
  | e :: d :: es => by
    rw [sequenceCode, sequenceCode, Expression.code_unlocated e, sequenceCode_unlocated (d :: es)]

end

theorem conditionCode_unlocated (c : Expression) :
    conditionCode (fs.map Function.unlocated) c = conditionCode fs c := by
  rw [conditionCode, conditionCode, Expression.code_unlocated]

mutual

theorem Action.code_unlocated : ∀ (a : Action) (start : Nat),
    a.code (fs.map Function.unlocated) start = a.code fs start
  | .evaluate e, _ => by rw [Action.code, Action.code, Expression.code_unlocated]
  | .giveBack e, _ => by rw [Action.code, Action.code, Expression.code_unlocated]
  | .when c body, start => by
    simp only [Action.code, conditionCode_unlocated, actionsCode_unlocated body]
  | .whenElse c body otherwise, start => by
    simp only [Action.code, conditionCode_unlocated, actionsCode_unlocated body,
      actionsCode_unlocated otherwise]
  | .loop c body, start => by
    simp only [Action.code, conditionCode_unlocated, actionsCode_unlocated body]

theorem actionsCode_unlocated : ∀ (as : List Action) (start : Nat),
    actionsCode (fs.map Function.unlocated) start as = actionsCode fs start as
  | [], _ => rfl
  | a :: as, start => by
    simp only [actionsCode, Action.code_unlocated a, actionsCode_unlocated as]

end

theorem assemble_unlocated (start : Nat) (gs : List Function) :
    assemble (fs.map Function.unlocated) start (gs.map Function.unlocated) = assemble fs start gs := by
  induction gs generalizing start with
  | nil => rfl
  | cons g gs ih =>
    have hcode : g.unlocated.code (fs.map Function.unlocated) start = g.code fs start := by
      simp only [Function.code, Function.unlocated, actionsCode_unlocated]
    rw [List.map_cons, assemble, assemble, hcode, ih]
    rfl

end

/-- **The program of a tree does not depend on the places of its functions.** -/
theorem Tree.program_unlocated (t : Tree) : t.unlocated.program = t.program := by
  rw [Tree.program, Tree.program, Tree.unlocated, assemble_unlocated]

end DanishProse

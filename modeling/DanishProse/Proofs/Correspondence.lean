/-
  What is looked up among functions that correspond.

  A call refers to a function by its place.  If the functions of one list have
  counterparts in another one, at places that a map `ρ` gives, then what is looked
  up among the first ones comes to the same among the others, with its calls
  renamed by `ρ`.

  * `Resolves always ρ fs gs`: what is called among `fs` is also called among `gs`,
    at the place that `ρ` says; what is not called there is not called here either,
    if that is `always` to be known;
  * `Checked.Alike always R`: the second check comes to what corresponds to the
    first one, with like reports; if not `always`, then at least where the first one
    has nothing to report;
  * `checkSentences_alike` is the result on bodies, `Function.sign_alike` and
    `Function.fill_alike` are those on functions.
-/
import DanishProse.Proofs.Checking
import DanishProse.Proofs.Likeness

namespace DanishProse

/-! ## Calls that are renamed -/

section
variable (ρ : Nat → Nat)

mutual

/-- An expression whose calls go to other places. -/
def Expression.renamed : Expression → Expression
  | .call index arguments ty => .call (ρ index) (expressionsRenamed arguments) ty
  | .literal v => .literal v
  | .read slot ty => .read slot ty
  | .sequence items ty => .sequence (expressionsRenamed items) ty
  | .assign slot e => .assign slot e.renamed
  | .unresolved arguments => .unresolved (expressionsRenamed arguments)
termination_by structural e => e

/-- Expressions whose calls go to other places. -/
def expressionsRenamed : List Expression → List Expression
  | [] => []
  | e :: es => e.renamed :: expressionsRenamed es
termination_by structural es => es

end

mutual

/-- An action whose calls go to other places. -/
def Action.renamed : Action → Action
  | .evaluate e => .evaluate (e.renamed ρ)
  | .giveBack e => .giveBack (e.renamed ρ)
  | .when c body => .when (c.renamed ρ) (actionsRenamed body)
  | .whenElse c body otherwise => .whenElse (c.renamed ρ) (actionsRenamed body) (actionsRenamed otherwise)
  | .loop c body => .loop (c.renamed ρ) (actionsRenamed body)
termination_by structural a => a

/-- Actions whose calls go to other places. -/
def actionsRenamed : List Action → List Action
  | [] => []
  | a :: as => a.renamed :: actionsRenamed as
termination_by structural as => as

end

theorem expressionsRenamed_eq_map (es : List Expression) :
    expressionsRenamed ρ es = es.map (Expression.renamed ρ) := by
  induction es with
  | nil => rfl
  | cons e es ih => rw [expressionsRenamed, List.map_cons, ih]

theorem actionsRenamed_append (as bs : List Action) :
    actionsRenamed ρ (as ++ bs) = actionsRenamed ρ as ++ actionsRenamed ρ bs := by
  induction as with
  | nil => rfl
  | cons a as ih => rw [List.cons_append, actionsRenamed, actionsRenamed, ih, List.cons_append]

@[simp] theorem Expression.type_renamed (e : Expression) : (e.renamed ρ).type = e.type := by
  cases e <;> rfl

theorem sequenceOf_renamed (es : List Expression) :
    sequenceOf (es.map (Expression.renamed ρ)) = (sequenceOf es).renamed ρ := by
  rcases es with _ | ⟨d, _ | ⟨e, es⟩⟩
  · rfl
  · rfl
  · have hlast : ((d :: e :: es).map (Expression.renamed ρ)).getLast?.map Expression.type =
        (d :: e :: es).getLast?.map Expression.type := by
      rw [List.getLast?_map, Option.map_map]
      congr 1
      funext e
      exact e.type_renamed ρ
    rw [sequenceOf, hlast, sequenceOf, Expression.renamed, expressionsRenamed_eq_map]
    · exact nofun
    · exact nofun

end

mutual

theorem Expression.renamed_id : ∀ (e : Expression), e.renamed id = e
  | .call index arguments ty => by rw [Expression.renamed, expressionsRenamed_id arguments, id]
  | .literal _ => rfl
  | .read _ _ => rfl
  | .sequence items _ => by rw [Expression.renamed, expressionsRenamed_id items]
  | .assign _ e => by rw [Expression.renamed, Expression.renamed_id e]
  | .unresolved arguments => by rw [Expression.renamed, expressionsRenamed_id arguments]

theorem expressionsRenamed_id : ∀ (es : List Expression), expressionsRenamed id es = es
  | [] => rfl
  | e :: es => by rw [expressionsRenamed, Expression.renamed_id e, expressionsRenamed_id es]

end

mutual

theorem Action.renamed_id : ∀ (a : Action), a.renamed id = a
  | .evaluate e => by rw [Action.renamed, e.renamed_id]
  | .giveBack e => by rw [Action.renamed, e.renamed_id]
  | .when c body => by rw [Action.renamed, c.renamed_id, actionsRenamed_id body]
  | .whenElse c body otherwise => by
    rw [Action.renamed, c.renamed_id, actionsRenamed_id body, actionsRenamed_id otherwise]
  | .loop c body => by rw [Action.renamed, c.renamed_id, actionsRenamed_id body]

theorem actionsRenamed_id : ∀ (as : List Action), actionsRenamed id as = as
  | [] => rfl
  | a :: as => by rw [actionsRenamed, Action.renamed_id a, actionsRenamed_id as]

end

/-! ## What is wanted -/

/-- The same type is wanted, or the same word. -/
inductive Wanted.Alike : Wanted → Wanted → Prop
  | word {v w : String} : WordAlike v w → Wanted.Alike (.word v) (.word w)
  | value (ty : Ty) : Wanted.Alike (.value ty) (.value ty)

theorem Wanted.Alike.text {w w' : Wanted} (h : w.Alike w') : WordAlike w.text w'.text := by
  cases h with
  | word h => exact h
  | value ty => exact .refl _

theorem joined_alike (separator : String) {vs ws : List String} (h : List.Forall₂ WordAlike vs ws) :
    WordAlike (Text.joined separator vs) (Text.joined separator ws) := by
  have hgo : ∀ {v w : String} {vs ws : List String}, WordAlike v w → List.Forall₂ WordAlike vs ws →
      WordAlike (String.intercalate separator (v :: vs)) (String.intercalate separator (w :: ws)) := by
    intro v w vs ws hv h
    induction h generalizing v w with
    | nil => simpa using hv
    | @cons v' w' vs ws hv' _ ih =>
      rw [String.intercalate_cons_cons, String.intercalate_cons_cons]
      exact (hv.append (.refl separator)).append (ih hv')
  cases h with
  | nil => exact .refl _
  | cons hv h => exact hgo hv h

theorem PatternPart.Alike.fits_eq {p q : PatternPart} {w w' : Wanted} (hp : p.Alike q) (hw : w.Alike w') :
    p.fits w = q.fits w' := by
  cases hp with
  | word hname =>
    cases hw with
    | word htext => exact hname.sameWord_eq htext
    | value ty => rfl
  | parameter _ htype =>
    cases hw with
    | word htext => rfl
    | value ty =>
      rw [PatternPart.fits, PatternPart.fits, htype.sameWord_eq (.refl _), htype.sameWord_eq (.refl _)]

theorem fitAll_eq {ps qs : List PatternPart} {ws ws' : List Wanted} (hp : List.Forall₂ PatternPart.Alike ps qs)
    (hw : List.Forall₂ Wanted.Alike ws ws') : fitAll ps ws = fitAll qs ws' := by
  induction hp generalizing ws ws' with
  | nil => cases hw <;> rfl
  | cons hpart _ ih =>
    cases hw with
    | nil => rfl
    | cons hwanted hw => rw [fitAll, fitAll, hpart.fits_eq hwanted, ih hw]

/-- What is called among some functions is called among others, at the place that
    `ρ` says. -/
structure Resolves (always : Prop) (ρ : Nat → Nat) (fs gs : List Function) : Prop where
  found : ∀ {ws ws' : List Wanted}, List.Forall₂ Wanted.Alike ws ws' → ∀ {f : Function} {i : Nat},
    lookupFunction fs ws = some (f, i) → ∃ g, lookupFunction gs ws' = some (g, ρ i) ∧ f.SameFace g
  missed : always → ∀ {ws ws' : List Wanted}, List.Forall₂ Wanted.Alike ws ws' →
    lookupFunction fs ws = none → lookupFunction gs ws' = none

/-! ## Checks that agree -/

/-- The second check comes to what corresponds to the first one, always, or if the
    first one has nothing to report. -/
def Checked.Alike {α β : Type} (always : Prop) (R : α → β → Prop) (c : Checked α) (d : Checked β) : Prop :=
  always ∨ c.reports = [] → R c.value d.value ∧ List.Forall₂ Report.Alike c.reports d.reports

section
variable {always : Prop}

theorem Checked.alike_pure {α β : Type} {R : α → β → Prop} {a : α} {b : β} (h : R a b) :
    Checked.Alike always R (pure a) (pure b) :=
  fun _ => ⟨h, .nil⟩

theorem Checked.Alike.bind {α β γ δ : Type} {R : α → β → Prop} {S : γ → δ → Prop} {c : Checked α}
    {d : Checked β} {f : α → Checked γ} {g : β → Checked δ} (hc : c.Alike always R d)
    (hf : ∀ a b, R a b → (f a).Alike always S (g b)) : (c >>= f).Alike always S (d >>= g) := by
  intro h
  simp only [Checked.reports_bind, List.append_eq_nil_iff] at h
  obtain ⟨hvalue, hreports⟩ := hc (h.imp_right And.left)
  obtain ⟨hvalue', hreports'⟩ := hf _ _ hvalue (h.imp_right And.right)
  exact ⟨hvalue', reports_append hreports hreports'⟩

theorem lookupType_alike {name name' : String} (h : WordAlike name name') (l m : Location) :
    (lookupType name l).Alike always Eq (lookupType name' m) := by
  have hnamed : Ty.named? name = Ty.named? name' := by
    unfold Ty.named?
    congr 1
    funext ty
    exact (WordAlike.refl ty.name).sameWord_eq h
  intro _
  unfold lookupType
  rw [hnamed]
  cases Ty.named? name' with
  | some ty => exact ⟨rfl, .nil⟩
  | none => exact ⟨rfl, .cons (.unresolvedType h) .nil⟩

/-! ## Locals -/

/-- Locals with the same word for a name, and the same otherwise. -/
structure Local.Alike (l m : Local) : Prop where
  name : WordAlike l.name m.name
  slot : m.slot = l.slot
  type : m.type = l.type
  isParameter : m.isParameter = l.isParameter

theorem Local.Alike.refl (l : Local) : l.Alike l :=
  ⟨.refl l.name, rfl, rfl, rfl⟩

theorem lookupLocal_alike {locals locals' : List Local} {v w : String}
    (h : List.Forall₂ Local.Alike locals locals') (hw : WordAlike v w) :
    Option.Rel Local.Alike (lookupLocal locals v) (lookupLocal locals' w) := by
  unfold lookupLocal
  induction h with
  | nil => exact .none
  | cons hl _ ih =>
    rw [List.find?_cons, List.find?_cons, hl.name.sameWord_eq hw]
    split
    · exact .some hl
    · exact ih

theorem addLocal_alike {locals locals' : List Local} {name name' : String}
    (h : List.Forall₂ Local.Alike locals locals') (hname : WordAlike name name') (type : Ty)
    (isParameter : Bool) :
    List.Forall₂ Local.Alike (addLocal locals name type isParameter)
      (addLocal locals' name' type isParameter) :=
  List.rel_append h (.cons ⟨hname, h.length_eq.symm, rfl, rfl⟩ .nil)

/-! ## Clauses -/

/-- Positions that correspond: like words, or a value and the same with its calls
    renamed. -/
inductive Term.Alike (ρ : Nat → Nat) : Term → Term → Prop
  | word {v w : String} : WordAlike v w → Term.Alike ρ (.word v) (.word w)
  | argument (e : Expression) : Term.Alike ρ (.argument e) (.argument (e.renamed ρ))

variable {ρ : Nat → Nat}

theorem wanted_alike {ts us : List Term} (h : List.Forall₂ (Term.Alike ρ) ts us) :
    List.Forall₂ Wanted.Alike (ts.map Term.wanted) (us.map Term.wanted) := by
  induction h with
  | nil => exact .nil
  | cons ht _ ih =>
    refine .cons ?_ ih
    cases ht with
    | word h => exact .word h
    | argument e =>
      rw [Term.wanted, Term.wanted, e.type_renamed ρ]
      exact .value _

theorem arguments_alike {ts us : List Term} (h : List.Forall₂ (Term.Alike ρ) ts us) :
    us.filterMap Term.argument? = (ts.filterMap Term.argument?).map (Expression.renamed ρ) := by
  induction h with
  | nil => rfl
  | cons ht _ ih =>
    cases ht with
    | word h => exact ih
    | argument e => exact congrArg (e.renamed ρ :: ·) ih

theorem assign_alike (value target : Expression) (l m : Location) :
    (assign value target l).Alike always (fun e e' => e' = e.renamed ρ)
      (assign (value.renamed ρ) (target.renamed ρ) m) := by
  intro _
  cases target with
  | read slot ty =>
    simp only [assign, Expression.renamed, Expression.type_renamed]
    split_ifs
    · exact ⟨rfl, .cons (.refl _) .nil⟩
    · exact ⟨rfl, .nil⟩
  | _ => exact ⟨rfl, .cons (.refl _) .nil⟩

/-- A call of the assignment on two values is an assignment. -/
theorem callFirst_of_lookup {fs : List Function} {ws : List Wanted} {es : List Expression} {l : Location}
    {f : Function} {i : Nat} (h : lookupFunction fs ws = some (f, i)) :
    callFirst fs ws es l =
      match f.isAssignment, es with
      | true, [value, target] => assign value target l
      | _, es => pure (.call i es f.returnType) := by
  simp only [callFirst, Function.isAssignment, h]
  cases f.role with
  | assignment => rcases es with _ | ⟨_, _ | ⟨_, _ | _⟩⟩ <;> rfl
  | _ => rfl

variable {fs gs : List Function}

theorem callFirst_alike (hr : Resolves always ρ fs gs) {ws ws' : List Wanted} (hw : List.Forall₂ Wanted.Alike ws ws')
    (es : List Expression) (l m : Location) :
    (callFirst fs ws es l).Alike always (fun e e' => e' = e.renamed ρ)
      (callFirst gs ws' (es.map (Expression.renamed ρ)) m) := by
  cases hlookup : lookupFunction fs ws with
  | none =>
    intro h
    unfold callFirst at h ⊢
    rw [hlookup] at h ⊢
    rcases h with h | h
    · rw [hr.missed h hw hlookup, ← expressionsRenamed_eq_map]
      refine ⟨rfl, .cons (.unresolvedFunction (joined_alike " " ?_)) .nil⟩
      exact List.forall₂_map_left_iff.2 (List.forall₂_map_right_iff.2 (hw.imp fun _ _ h => h.text))
    · cases h
  | some found =>
    obtain ⟨f, i⟩ := found
    obtain ⟨g, hfound, hface⟩ := hr.found hw hlookup
    have hcall : Expression.call (ρ i) (es.map (Expression.renamed ρ)) f.returnType =
        (Expression.call i es f.returnType).renamed ρ := by
      rw [Expression.renamed, expressionsRenamed_eq_map]
    rw [callFirst_of_lookup hlookup, callFirst_of_lookup hfound, hface.isAssignment, hface.returnType]
    cases f.isAssignment with
    | false => exact Checked.alike_pure hcall
    | true =>
      rcases es with _ | ⟨value, _ | ⟨target, _ | _⟩⟩
      · exact Checked.alike_pure hcall
      · exact Checked.alike_pure hcall
      · exact assign_alike value target l m
      · exact Checked.alike_pure hcall

theorem resolveTerms_alike (hr : Resolves always ρ fs gs) {ts us : List Term}
    (h : List.Forall₂ (Term.Alike ρ) ts us) (l m : Location) :
    (resolveTerms fs ts l).Alike always (fun e e' => e' = e.renamed ρ) (resolveTerms gs us m) := by
  have hwanted := wanted_alike h
  have hargs := arguments_alike h
  have hnone : (us.filterMap Term.argument?).any (fun e => e.type = .none) =
      (ts.filterMap Term.argument?).any (fun e => e.type = .none) := by
    rw [hargs, List.any_map]
    congr 1
    funext e
    rw [Function.comp_apply, e.type_renamed ρ]
  unfold resolveTerms
  split
  · cases h
    exact Checked.alike_pure rfl
  · next value =>
    cases h with
    | cons ht h =>
      cases ht
      cases h
      exact Checked.alike_pure rfl
  · next hnil hone =>
    split
    · cases h
      exact absurd rfl hnil
    · cases h with
      | cons ht h =>
        cases ht
        cases h
        exact absurd rfl (hone _)
    · dsimp only
      rw [hnone]
      split_ifs
      · rw [hargs, ← expressionsRenamed_eq_map]
        exact Checked.alike_pure rfl
      · rw [hargs]
        exact callFirst_alike hr hwanted _ l m

variable {locals locals' : List Local}

mutual

theorem Part.lookup_alike (hr : Resolves always ρ fs gs)
    (hl : List.Forall₂ Local.Alike locals locals') : ∀ {p q : Part}, p.Alike q →
    (p.lookup fs locals).Alike always (Term.Alike ρ) (q.lookup gs locals')
  | _, _, .word (v := v) (w := w) hw => by
    have hfound := lookupLocal_alike hl hw
    rw [Part.lookup, Part.lookup]
    cases hv : lookupLocal locals v <;> cases hw' : lookupLocal locals' w <;> rw [hv, hw'] at hfound
    · exact Checked.alike_pure (.word hw)
    · cases hfound
    · cases hfound
    · cases hfound with
      | some hm =>
        dsimp only
        rw [hm.slot, hm.type]
        exact Checked.alike_pure (.argument _)
  | _, _, .literal v => Checked.alike_pure (.argument _)
  | _, _, .list hcs => by
    rw [Part.lookup, Part.lookup]
    refine (lookupEach_alike hr hl hcs).bind fun es es' hes => ?_
    rw [hes, sequenceOf_renamed]
    exact Checked.alike_pure (.argument _)

theorem lookupParts_alike (hr : Resolves always ρ fs gs)
    (hl : List.Forall₂ Local.Alike locals locals') : ∀ {ps qs : List Part}, PartsAlike ps qs →
    (lookupParts fs locals ps).Alike always (List.Forall₂ (Term.Alike ρ)) (lookupParts gs locals' qs)
  | _, _, .nil => Checked.alike_pure .nil
  | _, _, .cons hp hps => by
    rw [lookupParts, lookupParts]
    refine (Part.lookup_alike hr hl hp).bind fun t u ht => ?_
    refine (lookupParts_alike hr hl hps).bind fun ts us hts => ?_
    exact Checked.alike_pure (.cons ht hts)

theorem Clause.lookup_alike (hr : Resolves always ρ fs gs)
    (hl : List.Forall₂ Local.Alike locals locals') : ∀ {c d : Clause}, c.Alike d →
    (c.lookup fs locals).Alike always (fun e e' => e' = e.renamed ρ) (d.lookup gs locals')
  | _, _, .mk (l := l) (m := m) hps => by
    rw [Clause.lookup, Clause.lookup]
    exact (lookupParts_alike hr hl hps).bind fun ts us hts => resolveTerms_alike hr hts l m

theorem lookupEach_alike (hr : Resolves always ρ fs gs)
    (hl : List.Forall₂ Local.Alike locals locals') : ∀ {cs ds : List Clause}, ClausesAlike cs ds →
    (lookupEach fs locals cs).Alike always (fun es es' => es' = es.map (Expression.renamed ρ))
      (lookupEach gs locals' ds)
  | _, _, .nil => Checked.alike_pure rfl
  | _, _, .cons hc hcs => by
    rw [lookupEach, lookupEach]
    refine (Clause.lookup_alike hr hl hc).bind fun e e' he => ?_
    refine (lookupEach_alike hr hl hcs).bind fun es es' hes => ?_
    rw [he, hes]
    exact Checked.alike_pure rfl

end

theorem lookupClauses_alike (hr : Resolves always ρ fs gs)
    (hl : List.Forall₂ Local.Alike locals locals') {cs ds : List Clause} (h : ClausesAlike cs ds) :
    (lookupClauses fs locals cs).Alike always (fun e e' => e' = e.renamed ρ)
      (lookupClauses gs locals' ds) := by
  refine (lookupEach_alike hr hl h).bind fun es es' hes => ?_
  rw [hes, sequenceOf_renamed]
  exact Checked.alike_pure rfl

/-! ## Bodies -/

/-- Bodies that correspond: the same actions with their calls renamed, and like
    locals. -/
structure Body.Alike (ρ : Nat → Nat) (b c : Body) : Prop where
  actions : c.actions = actionsRenamed ρ b.actions
  locals : List.Forall₂ Local.Alike b.locals c.locals

mutual

theorem Sentence.check_alike (hr : Resolves always ρ fs gs) : ∀ {s s' : Sentence} {locals locals' : List Local},
    List.Forall₂ Local.Alike locals locals' → s.Alike s' →
      (s.check fs locals).Alike always (Body.Alike ρ) (s'.check gs locals')
  | _, _, _, _, hl, .declare l m hname htype => by
    rw [Sentence.check, Sentence.check]
    refine (lookupType_alike htype l m).bind fun ty _ hty => ?_
    subst hty
    exact Checked.alike_pure ⟨rfl, addLocal_alike hl hname ty false⟩
  | _, _, _, _, hl, .express hcs => by
    rw [Sentence.check, Sentence.check]
    refine (lookupClauses_alike hr hl hcs).bind fun e _ he => ?_
    subst he
    exact Checked.alike_pure ⟨rfl, hl⟩
  | _, _, _, _, hl, .giveBack hcs => by
    rw [Sentence.check, Sentence.check]
    refine (lookupClauses_alike hr hl hcs).bind fun e _ he => ?_
    subst he
    exact Checked.alike_pure ⟨rfl, hl⟩
  | _, _, _, _, hl, .when hcs hbody => by
    rw [Sentence.check, Sentence.check]
    refine (lookupClauses_alike hr hl hcs).bind fun e _ he => ?_
    refine (checkSentences_alike hr hl hbody).bind fun inner inner' hinner => ?_
    subst he
    rw [hinner.actions]
    exact Checked.alike_pure ⟨rfl, hinner.locals⟩
  | _, _, _, _, hl, .whenElse hcs hbody hotherwise => by
    rw [Sentence.check, Sentence.check]
    refine (lookupClauses_alike hr hl hcs).bind fun e _ he => ?_
    refine (checkSentences_alike hr hl hbody).bind fun inner inner' hinner => ?_
    refine (checkSentences_alike hr hinner.locals hotherwise).bind fun other other' hother => ?_
    subst he
    rw [hinner.actions, hother.actions]
    exact Checked.alike_pure ⟨rfl, hother.locals⟩
  | _, _, _, _, hl, .loop hcs hbody => by
    rw [Sentence.check, Sentence.check]
    refine (lookupClauses_alike hr hl hcs).bind fun e _ he => ?_
    refine (checkSentences_alike hr hl hbody).bind fun inner inner' hinner => ?_
    subst he
    rw [hinner.actions]
    exact Checked.alike_pure ⟨rfl, hinner.locals⟩

theorem checkSentences_alike (hr : Resolves always ρ fs gs) : ∀ {ss ss' : List Sentence} {locals locals' : List Local},
    List.Forall₂ Local.Alike locals locals' → SentencesAlike ss ss' →
      (checkSentences fs locals ss).Alike always (Body.Alike ρ) (checkSentences gs locals' ss')
  | _, _, _, _, hl, .nil => Checked.alike_pure ⟨rfl, hl⟩
  | _, _, _, _, hl, .cons hs hss => by
    rw [checkSentences, checkSentences]
    refine (Sentence.check_alike hr hl hs).bind fun first first' hfirst => ?_
    refine (checkSentences_alike hr hfirst.locals hss).bind fun more more' hmore => ?_
    rw [hfirst.actions, hmore.actions, ← actionsRenamed_append]
    exact Checked.alike_pure ⟨rfl, hmore.locals⟩

end

/-! ## Functions -/

/-- The same way to work, whatever the number of the function. -/
inductive FunctionRole.Alike (ρ : Nat → Nat) : FunctionRole → FunctionRole → Prop
  | intrinsic (op : OpCode) : FunctionRole.Alike ρ (.intrinsic op) (.intrinsic op)
  | assignment : FunctionRole.Alike ρ .assignment .assignment
  | native (f : Native) : FunctionRole.Alike ρ (.native f) (.native f)
  | user (symbol symbol' : Nat) {locals locals' : List Local} (body : List Action) :
      List.Forall₂ Local.Alike locals locals' →
      FunctionRole.Alike ρ (.user symbol locals body) (.user symbol' locals' (actionsRenamed ρ body))

/-- Functions that correspond: they look alike and do the same, with their calls
    renamed. -/
structure Function.Alike (ρ : Nat → Nat) (f g : Function) : Prop where
  pattern : f.pattern.Alike g.pattern
  returnName : WordAlike f.returnName g.returnName
  returnType : g.returnType = f.returnType
  parameterTypes : g.parameterTypes = f.parameterTypes
  role : f.role.Alike ρ g.role

/-- A function corresponds to itself where no call goes to another place. -/
theorem Function.Alike.refl (f : Function) : f.Alike id f := by
  refine ⟨.refl _, .refl _, rfl, rfl, ?_⟩
  cases f.role with
  | intrinsic op => exact .intrinsic op
  | assignment => exact .assignment
  | native f => exact .native f
  | user symbol locals body =>
    have hrole : FunctionRole.Alike id (.user symbol locals body) (.user symbol locals (actionsRenamed id body)) :=
      .user symbol symbol body (List.forall₂_same.2 fun l _ => .refl l)
    rwa [actionsRenamed_id] at hrole

variable {f g : Function}

theorem Function.Alike.isUser_eq (h : f.Alike ρ g) : g.isUser = f.isUser := by
  have hrole := h.role
  unfold Function.isUser
  generalize f.role = r, g.role = s at hrole ⊢
  cases hrole <;> rfl

theorem Function.Alike.sameFace (h : f.Alike ρ g) : f.SameFace g := by
  refine ⟨?_, h.parameterTypes, h.returnType⟩
  have hrole := h.role
  unfold Function.isAssignment
  generalize f.role = r, g.role = s at hrole ⊢
  cases hrole <;> rfl

theorem Pattern.Alike.parameters {p q : Pattern} (h : p.Alike q) :
    List.Forall₂ PatternPart.Alike p.parameters q.parameters := by
  unfold Pattern.Alike at h
  unfold Pattern.parameters
  generalize p.parts = ps, q.parts = qs at h ⊢
  induction h with
  | nil => exact .nil
  | cons hpart _ ih =>
    cases hpart with
    | word _ => exact ih
    | parameter hname htype => exact .cons (.parameter hname htype) ih

theorem typeNames_alike {ps qs : List PatternPart} (h : List.Forall₂ PatternPart.Alike ps qs) :
    List.Forall₂ WordAlike (ps.filterMap PatternPart.typeName?) (qs.filterMap PatternPart.typeName?) := by
  induction h with
  | nil => exact .nil
  | cons hpart _ ih =>
    cases hpart with
    | word _ => exact ih
    | parameter _ htype => exact .cons htype ih

theorem PatternPart.Alike.name {p q : PatternPart} (h : p.Alike q) : WordAlike p.name q.name := by
  cases h with
  | word h => exact h
  | parameter h _ => exact h

theorem Function.Alike.parameterLocals (h : f.Alike ρ g) :
    List.Forall₂ Local.Alike f.parameterLocals g.parameterLocals := by
  have hgo : ∀ {ps qs : List PatternPart}, List.Forall₂ PatternPart.Alike ps qs →
      ∀ (tys : List Ty) {ls ls' : List Local}, List.Forall₂ Local.Alike ls ls' →
        List.Forall₂ Local.Alike
          ((ps.zip tys).foldl (fun ls entry => addLocal ls entry.1.name entry.2 true) ls)
          ((qs.zip tys).foldl (fun ls entry => addLocal ls entry.1.name entry.2 true) ls') := by
    intro ps qs hps
    induction hps with
    | nil => exact fun _ _ _ hls => hls
    | cons hpart _ ih =>
      intro tys ls ls' hls
      cases tys with
      | nil => exact hls
      | cons ty tys => exact ih tys (addLocal_alike hls hpart.name ty true)
  unfold Function.parameterLocals
  rw [h.parameterTypes]
  exact hgo h.pattern.parameters _ .nil

theorem lookupTypes_alike {names names' : List String} (h : List.Forall₂ WordAlike names names')
    (l m : Location) : (lookupTypes l names).Alike always Eq (lookupTypes m names') := by
  induction h with
  | nil => exact Checked.alike_pure rfl
  | cons hname _ ih =>
    rw [lookupTypes, lookupTypes]
    refine (lookupType_alike hname l m).bind fun ty _ hty => ?_
    refine ih.bind fun tys _ htys => ?_
    subst hty htys
    exact Checked.alike_pure rfl

theorem Function.sign_alike (h : f.Alike ρ g) (m n : Nat) :
    (f.sign m).Alike always (Function.Alike ρ) (g.sign n) := by
  rw [Function.sign, Function.sign]
  refine (lookupType_alike h.returnName _ _).bind fun ty _ hty => ?_
  refine (lookupTypes_alike (typeNames_alike h.pattern.parameters) _ _).bind fun tys _ htys => ?_
  subst hty htys
  refine Checked.alike_pure ⟨h.pattern, h.returnName, rfl, rfl, ?_⟩
  have hrole := h.role
  cases hf : f.role <;> cases hg : g.role <;> rw [hf, hg] at hrole <;> cases hrole
  · exact .intrinsic _
  · exact .assignment
  · exact .native _
  · next hlocals => exact .user _ _ _ hlocals

/-- **Bodies of functions that correspond are checked alike.** -/
theorem Function.fill_alike (hr : Resolves always ρ fs gs) (h : f.Alike ρ g) {body body' : List Sentence}
    (hbody : SentencesAlike body body') :
    (f.fill fs body).Alike always (Function.Alike ρ) (g.fill gs body') := by
  rw [Function.fill, Function.fill]
  refine (checkSentences_alike hr h.parameterLocals hbody).bind fun checked checked' hchecked => ?_
  have hrole := h.role
  cases hf : f.role <;> cases hg : g.role <;> rw [hf, hg] at hrole <;> cases hrole
  case user.user symbol locals actions symbol' locals' hlocals =>
    dsimp only
    rw [hchecked.actions]
    exact Checked.alike_pure
      ⟨h.pattern, h.returnName, h.returnType, h.parameterTypes, .user _ _ _ hchecked.locals⟩
  all_goals exact Checked.alike_pure h

end

end DanishProse

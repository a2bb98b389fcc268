/-
  A tree that was looked up without a report is well typed.

  * `Function.Signed`: the types of a function are those that it names
    (`signAll_signed`).  A call whose words and values fit the pattern of such a
    function passes values of its parameter types (`type_of_fitAll`);
  * `lookupClauses_hasType`: what a filled clause list is looked up to has a type;
  * `checkSentences_wellTyped`: so do all expressions of a body, with the locals
    that are there at its end;
  * `Tree.wellTyped_of_document` and `wellTyped_of_compile` are the results on
    whole trees.
-/
import Mathlib.Data.List.Forall2
import DanishProse.Proofs.Reading
import DanishProse.Proofs.Typing

namespace DanishProse

/-! ## Names of types -/

theorem Ty.eq_of_sameWord {a b : Ty} (h : Text.sameWord a.name b.name = true) : a = b := by
  revert h
  cases a <;> cases b <;> decide

theorem Ty.sameWord_of_named? {name : String} {ty : Ty} (h : Ty.named? name = some ty) :
    Text.sameWord ty.name name = true := by
  simpa using List.find?_some h

theorem Ty.isValue_of_startsWord {name : String} {ty : Ty} (h : StartsWord name)
    (hty : Ty.named? name = some ty) : ty.IsValue := by
  have hsame := Ty.sameWord_of_named? hty
  cases ty with
  | integer => exact .inl rfl
  | float => exact .inr (.inl rfl)
  | boolean => exact .inr (.inr rfl)
  | any =>
    rw [sameWord_dollar h Ty.any.name ['a', 'n', 'y'] (by decide)] at hsame
    cases hsame
  | none =>
    rw [sameWord_dollar h Ty.none.name ['n', 'o', 'n', 'e'] (by decide)] at hsame
    cases hsame

/-! ## Signatures -/

theorem lookupType_value {name : String} {l : Location} (h : (lookupType name l).reports = []) :
    Ty.named? name = some (lookupType name l).value := by
  unfold lookupType at *
  cases hn : Ty.named? name with
  | none => simp [hn, Checked.report] at h
  | some ty => rfl

theorem lookupTypes_value {l : Location} {names : List String}
    (h : (lookupTypes l names).reports = []) :
    names.map Ty.named? = (lookupTypes l names).value.map some := by
  induction names with
  | nil => rfl
  | cons name names ih =>
    simp only [lookupTypes, Checked.reports_bind, Checked.reports_pure, List.append_eq_nil_iff] at h
    simp only [lookupTypes, Checked.value_bind, Checked.value_pure, List.map_cons]
    rw [lookupType_value h.1, ih h.2.1]

/-- The types of a function are those that it names. -/
structure Function.Signed (f : Function) : Prop where
  returnType : Ty.named? f.returnName = some f.returnType
  parameterTypes : (f.pattern.parts.filterMap PatternPart.typeName?).map Ty.named? =
    f.parameterTypes.map some

theorem Pattern.typeNames_parameters (p : Pattern) :
    p.parameters.filterMap PatternPart.typeName? = p.parts.filterMap PatternPart.typeName? := by
  rw [Pattern.parameters, List.filterMap_filter]
  congr 1
  funext part
  cases part <;> rfl

theorem Function.sign_signed {f : Function} {n : Nat} (h : (f.sign n).reports = []) :
    (f.sign n).value.Signed := by
  simp only [Function.sign, Checked.reports_bind, List.append_eq_nil_iff] at h
  obtain ⟨hr, hp, -⟩ := h
  refine ⟨lookupType_value hr, ?_⟩
  rw [← Pattern.typeNames_parameters]
  exact lookupTypes_value hp

theorem signAll_cons {n : Nat} {f : Function} {fs : List Function}
    (h : (signAll n (f :: fs)).reports = []) :
    (f.sign n).reports = [] ∧ (signAll (if f.isUser then n + 1 else n) fs).reports = [] ∧
      (signAll n (f :: fs)).value =
        (f.sign n).value :: (signAll (if f.isUser then n + 1 else n) fs).value := by
  by_cases hs : (f.sign n).reports.isEmpty = true
  · simp only [signAll, hs, if_true] at h ⊢
    exact ⟨List.isEmpty_iff.1 hs, h, trivial⟩
  · simp only [signAll, hs, Bool.false_eq_true, if_false] at h
    exact absurd (List.isEmpty_iff.2 h) hs

theorem signAll_signed {fs : List Function} {n : Nat} (h : (signAll n fs).reports = []) :
    ∀ f ∈ (signAll n fs).value, f.Signed := by
  induction fs generalizing n with
  | nil => simp [signAll]
  | cons f fs ih =>
    obtain ⟨hf, hfs, hv⟩ := signAll_cons h
    rw [hv]
    exact List.forall_mem_cons.2 ⟨Function.sign_signed hf, ih hfs⟩

/-- Signing leaves what was written as it was. -/
theorem signAll_written {fs : List Function} {n : Nat} (h : (signAll n fs).reports = []) :
    (signAll n fs).value.map (fun f => (f.pattern, f.returnName)) =
      fs.map fun f => (f.pattern, f.returnName) := by
  induction fs generalizing n with
  | nil => rfl
  | cons f fs ih =>
    obtain ⟨hf, hfs, hv⟩ := signAll_cons h
    rw [hv, List.map_cons, List.map_cons, ih hfs]
    rfl

/-- Functions with bodies are numbered in their order. -/
theorem signAll_symbols {fs : List Function} {n : Nat} (hu : ∀ f ∈ fs, f.isUser = true)
    (h : (signAll n fs).reports = []) :
    (signAll n fs).value.map Function.symbol? = (List.range' n fs.length).map some := by
  induction fs generalizing n with
  | nil => rfl
  | cons f fs ih =>
    obtain ⟨hf, hfs, hv⟩ := signAll_cons h
    obtain ⟨hfu, hu⟩ := List.forall_mem_cons.1 hu
    rw [if_pos hfu] at hfs hv
    rw [hv, List.map_cons, ih hu hfs, List.length_cons, List.range'_succ, List.map_cons]
    congr 1
    unfold Function.isUser at hfu
    simp only [Function.sign, Checked.value_bind, Checked.value_pure, Function.symbol?]
    cases hrole : f.role <;> simp_all

/-- Functions without bodies do not count. -/
theorem signAll_append (gs : List Function) {fs : List Function} {n : Nat}
    (hu : ∀ f ∈ fs, f.isUser = false) (h : (signAll n fs).reports = []) :
    (signAll n (fs ++ gs)).value = (signAll n fs).value ++ (signAll n gs).value ∧
      (signAll n (fs ++ gs)).reports = (signAll n gs).reports := by
  induction fs with
  | nil => exact ⟨rfl, rfl⟩
  | cons f fs ih =>
    obtain ⟨hf, hfs, hv⟩ := signAll_cons h
    obtain ⟨hfu, hu⟩ := List.forall_mem_cons.1 hu
    rw [hfu] at hfs hv
    obtain ⟨ihv, ihr⟩ := ih hu hfs
    have hs : (f.sign n).reports.isEmpty = true := List.isEmpty_iff.2 hf
    rw [hv]
    simp only [List.cons_append, signAll, hs, hfu, if_true, Bool.false_eq_true, if_false]
    exact ⟨congrArg _ ihv, ihr⟩

/-! ## Calls -/

/-- What a call needs of the functions that it may go to. -/
structure Callable (fs : List Function) : Prop where
  signed : ∀ f ∈ fs, f.Signed
  returnType : ∀ f ∈ fs, f.returnType.IsValue
  parameterTypes : ∀ f ∈ fs, f.isAssignment = false → ∀ ty ∈ f.parameterTypes, ty.IsValue
  assignment : ∀ f ∈ fs, f.isAssignment = true → f.parameterTypes.length = 2

theorem PatternPart.type_of_fits {name typeName : String} {ty given : Ty}
    (hty : Ty.named? typeName = some ty) (hv : ty.IsValue)
    (h : (PatternPart.parameter name typeName).fits (.value given) = true) : given = ty := by
  have hname := Ty.sameWord_of_named? hty
  rcases Bool.or_eq_true_iff.1 h with hany | hgiven
  · have : ty = .any := Ty.eq_of_sameWord (Text.sameWord_trans hname hany)
    subst this
    exact absurd hv (by decide)
  · exact (Ty.eq_of_sameWord (Text.sameWord_trans hname hgiven)).symm

/-- Positions that fit a pattern pass as many values as it has parameters. -/
theorem length_of_fitAll : ∀ (ps : List PatternPart) (ts : List Term),
    fitAll ps (ts.map Term.wanted) = true →
      (ts.filterMap Term.argument?).length = (ps.filterMap PatternPart.typeName?).length
  | [], [], _ => rfl
  | .word _ :: ps, .word _ :: ts, h => length_of_fitAll ps ts (Bool.and_eq_true_iff.1 h).2
  | .parameter _ _ :: ps, .argument _ :: ts, h =>
    congrArg (· + 1) (length_of_fitAll ps ts (Bool.and_eq_true_iff.1 h).2)
  | .word _ :: _, .argument _ :: _, h => by simp [fitAll, Term.wanted, PatternPart.fits] at h
  | .parameter _ _ :: _, .word _ :: _, h => by simp [fitAll, Term.wanted, PatternPart.fits] at h

/-- Positions that fit a pattern pass values of the types of its parameters. -/
theorem type_of_fitAll : ∀ (ps : List PatternPart) (ts : List Term) {tys : List Ty},
    (ps.filterMap PatternPart.typeName?).map Ty.named? = tys.map some →
      (∀ ty ∈ tys, ty.IsValue) → fitAll ps (ts.map Term.wanted) = true →
        (ts.filterMap Term.argument?).map Expression.type = tys
  | [], [], [], _, _, _ => rfl
  | .word _ :: ps, .word _ :: ts, tys, hn, hv, h =>
    type_of_fitAll ps ts hn hv (Bool.and_eq_true_iff.1 h).2
  | .parameter _ typeName :: ps, .argument e :: ts, ty :: tys, hn, hv, h => by
    obtain ⟨hfit, hrest⟩ := Bool.and_eq_true_iff.1 h
    obtain ⟨hname, hnames⟩ := List.cons.inj hn
    obtain ⟨hty, htys⟩ := List.forall_mem_cons.1 hv
    have ih := type_of_fitAll ps ts hnames htys hrest
    exact congrArg₂ _ (PatternPart.type_of_fits hname hty hfit) ih
  | .word _ :: _, .argument _ :: _, _, _, _, h => by simp [fitAll, Term.wanted, PatternPart.fits] at h
  | .parameter _ _ :: _, .word _ :: _, _, _, _, h => by
    simp [fitAll, Term.wanted, PatternPart.fits] at h

theorem lookupFunction_spec {fs : List Function} {wanted : List Wanted} {f : Function} {index : Nat}
    (h : lookupFunction fs wanted = some (f, index)) :
    fs[index]? = some f ∧ f.accepts wanted = true := by
  refine ⟨?_, by simpa using List.find?_some h⟩
  exact List.mem_zipIdx_iff_getElem?.1 (List.mem_of_find?_eq_some h)

/-! ## Clauses -/

section
variable {fs : List Function} {locals : List Local}

theorem assign_hasType {value target : Expression} {l : Location} (hf : Callable fs)
    (hl : Placed locals) (hv : HasType fs locals value value.type)
    (ht : HasType fs locals target target.type) (h : (assign value target l).reports = []) :
    HasType fs locals (assign value target l).value (assign value target l).value.type := by
  cases target with
  | read slot ty =>
    have hvalue := hv.isValue hf.returnType hl.isValue
    have htarget := ht.isValue hf.returnType hl.isValue
    have hty : value.type = ty := by
      by_contra hne
      have hcond : value.type ≠ ty ∧ value.type ≠ .none ∧ ty ≠ .none :=
        ⟨hne, hvalue.ne_none, htarget.ne_none⟩
      simp [assign, hcond, Checked.report] at h
    have hassign : (assign value (.read slot ty) l).value = .assign slot value := by
      simp only [assign]
      split_ifs <;> rfl
    rw [hassign]
    cases ht with
    | read hslot => exact .assign hslot (hty ▸ hv)
  | _ => simp [assign, Checked.report] at h

theorem callFirst_hasType {ts : List Term} {l : Location} (hf : Callable fs) (hl : Placed locals)
    (hts : ∀ e ∈ ts.filterMap Term.argument?, HasType fs locals e e.type)
    (h : (callFirst fs (ts.map Term.wanted) (ts.filterMap Term.argument?) l).reports = []) :
    HasType fs locals (callFirst fs (ts.map Term.wanted) (ts.filterMap Term.argument?) l).value
      (callFirst fs (ts.map Term.wanted) (ts.filterMap Term.argument?) l).value.type := by
  unfold callFirst at *
  cases hlookup : lookupFunction fs (ts.map Term.wanted) with
  | none => simp [hlookup, Checked.report] at h
  | some found =>
    obtain ⟨f, index⟩ := found
    obtain ⟨hget, hfit⟩ := lookupFunction_spec hlookup
    have hmem := List.mem_of_getElem? hget
    have hsigned := (hf.signed f hmem).parameterTypes
    have hlen := length_of_fitAll _ _ hfit
    have hparams : (f.pattern.parts.filterMap PatternPart.typeName?).length = f.parameterTypes.length := by
      simpa using congrArg List.length hsigned
    simp only [hlookup] at h ⊢
    split at h
    · next value target hrole hargs =>
      rw [hargs] at hts
      exact assign_hasType hf hl (hts value (by simp)) (hts target (by simp)) h
    · next hrole =>
      have hna : f.isAssignment = false := by
        by_contra hassign
        have htwo := hf.assignment f hmem (by simpa using hassign)
        have : f.role = .assignment := by
          unfold Function.isAssignment at hassign
          split at hassign
          · assumption
          · exact absurd rfl hassign
        match hargs : ts.filterMap Term.argument?, hlen.trans (hparams.trans htwo) with
        | [a, b], _ => exact hrole a b this hargs
      have htypes := type_of_fitAll _ _ hsigned (hf.parameterTypes f hmem hna) hfit
      have hargs := HasTypes.of_forall hts
      rw [htypes] at hargs
      exact .call hget hna hargs

theorem resolveTerms_hasType {ts : List Term} {l : Location} (hf : Callable fs) (hl : Placed locals)
    (hne : ts ≠ []) (hts : ∀ e ∈ ts.filterMap Term.argument?, HasType fs locals e e.type)
    (h : (resolveTerms fs ts l).reports = []) :
    HasType fs locals (resolveTerms fs ts l).value (resolveTerms fs ts l).value.type := by
  have hsome : (ts.filterMap Term.argument?).any (fun e => e.type = .none) = false := by
    refine List.any_eq_false.2 fun e he => ?_
    simpa using ((hts e he).isValue hf.returnType hl.isValue).ne_none
  unfold resolveTerms at *
  split at h
  · exact absurd rfl hne
  · exact hts _ (by simp [Term.argument?])
  · simp only [hsome, Bool.false_eq_true, if_false] at h ⊢
    exact callFirst_hasType hf hl hts h

theorem sequenceOf_hasType {es : List Expression} (hne : es ≠ [])
    (hes : ∀ e ∈ es, HasType fs locals e e.type) :
    HasType fs locals (sequenceOf es) (sequenceOf es).type := by
  match es, hne with
  | [e], _ => exact hes e (by simp)
  | d :: e :: es, _ =>
    refine .sequence (by simp) (.of_forall hes) ?_
    rw [List.getLast?_map, List.getLast?_eq_some_getLast (List.cons_ne_nil _ _)]
    rfl

theorem lookupLocal_hasType {word : String} {l : Local} (hl : Placed locals)
    (h : lookupLocal locals word = some l) : HasType fs locals (.read l.slot l.type) l.type := by
  obtain ⟨i, hi⟩ := List.mem_iff_getElem?.1 (List.mem_of_find?_eq_some h)
  rw [hl.slot i l hi]
  exact .read hi

mutual

theorem Part.lookup_hasType (hf : Callable fs) (hl : Placed locals) : ∀ {p : Part}, p.Filled →
    (p.lookup fs locals).reports = [] →
      ∀ e, (p.lookup fs locals).value.argument? = some e → HasType fs locals e e.type
  | .word text, _, _, e, he => by
    rw [Part.lookup] at he
    split at he
    · next l hlookup =>
      cases he
      exact lookupLocal_hasType hl hlookup
    · cases he
  | .literal v, _, _, e, he => by
    cases he
    exact .literal v
  | .list cs, hp, h, e, he => by
    cases he
    have hreports := (List.append_eq_nil_iff.1 h).1
    obtain ⟨hes, hlen⟩ := lookupEach_hasType hf hl hp.2 hreports
    refine sequenceOf_hasType (fun hnil => hp.1 ?_) hes
    rw [hnil] at hlen
    exact List.length_eq_zero_iff.1 hlen.symm

theorem lookupParts_hasType (hf : Callable fs) (hl : Placed locals) : ∀ {ps : List Part},
    PartsFilled ps → (lookupParts fs locals ps).reports = [] →
      (∀ e ∈ (lookupParts fs locals ps).value.filterMap Term.argument?, HasType fs locals e e.type) ∧
        (lookupParts fs locals ps).value.length = ps.length
  | [], _, _ => by simp [lookupParts]
  | p :: ps, hp, h => by
    simp only [lookupParts, Checked.reports_bind, Checked.reports_pure, List.append_eq_nil_iff] at h
    have hpart := Part.lookup_hasType hf hl hp.1 h.1
    obtain ⟨hes, hlen⟩ := lookupParts_hasType hf hl hp.2 h.2.1
    simp only [lookupParts, Checked.value_bind, Checked.value_pure]
    refine ⟨fun e he => ?_, congrArg (· + 1) hlen⟩
    rw [List.mem_filterMap] at he
    obtain ⟨t, ht, he⟩ := he
    rcases List.mem_cons.1 ht with rfl | ht
    · exact hpart e he
    · exact hes e (List.mem_filterMap.2 ⟨t, ht, he⟩)

theorem Clause.lookup_hasType (hf : Callable fs) (hl : Placed locals) : ∀ {c : Clause}, c.Filled →
    (c.lookup fs locals).reports = [] →
      HasType fs locals (c.lookup fs locals).value (c.lookup fs locals).value.type
  | .mk l ps, hc, h => by
    simp only [Clause.lookup, Checked.reports_bind, List.append_eq_nil_iff] at h
    obtain ⟨hts, hlen⟩ := lookupParts_hasType hf hl hc.2 h.1
    refine resolveTerms_hasType hf hl (fun hnil => hc.1 ?_) hts h.2
    rw [hnil] at hlen
    exact List.length_eq_zero_iff.1 hlen.symm

theorem lookupEach_hasType (hf : Callable fs) (hl : Placed locals) : ∀ {cs : List Clause},
    ClausesFilled cs → (lookupEach fs locals cs).reports = [] →
      (∀ e ∈ (lookupEach fs locals cs).value, HasType fs locals e e.type) ∧
        (lookupEach fs locals cs).value.length = cs.length
  | [], _, _ => by simp [lookupEach]
  | c :: cs, hc, h => by
    simp only [lookupEach, Checked.reports_bind, Checked.reports_pure, List.append_eq_nil_iff] at h
    have he := Clause.lookup_hasType hf hl hc.1 h.1
    obtain ⟨hes, hlen⟩ := lookupEach_hasType hf hl hc.2 h.2.1
    simp only [lookupEach, Checked.value_bind, Checked.value_pure]
    exact ⟨List.forall_mem_cons.2 ⟨he, hes⟩, congrArg (· + 1) hlen⟩

end

/-- **What a filled clause list is looked up to has a type.** -/
theorem lookupClauses_hasType {cs : List Clause} (hf : Callable fs) (hl : Placed locals)
    (hne : cs ≠ []) (hcs : ClausesFilled cs) (h : (lookupClauses fs locals cs).reports = []) :
    HasType fs locals (lookupClauses fs locals cs).value (lookupClauses fs locals cs).value.type := by
  obtain ⟨hes, hlen⟩ := lookupEach_hasType hf hl hcs (List.append_eq_nil_iff.1 h).1
  refine sequenceOf_hasType (fun hnil => hne ?_) hes
  rw [hnil] at hlen
  exact List.length_eq_zero_iff.1 hlen.symm

end

/-! ## Bodies -/

/-- Locals with others declared behind them. -/
structure Grows (locals more : List Local) : Prop where
  placed : Placed more
  declared : ∃ ls, more = locals ++ ls ∧ ∀ l ∈ ls, l.isParameter = false

theorem Grows.refl {locals : List Local} (h : Placed locals) : Grows locals locals :=
  ⟨h, [], by simp⟩

theorem Grows.trans {a b c : List Local} (hab : Grows a b) (hbc : Grows b c) : Grows a c := by
  obtain ⟨-, ls, rfl, hls⟩ := hab
  obtain ⟨hplaced, ms, rfl, hms⟩ := hbc
  refine ⟨hplaced, ls ++ ms, List.append_assoc _ _ _, fun l hl => ?_⟩
  exact (List.mem_append.1 hl).elim (hls l) (hms l)

theorem Grows.isPrefix {a b : List Local} (h : Grows a b) : a <+: b := by
  obtain ⟨-, ls, rfl, -⟩ := h
  exact List.prefix_append _ _

theorem addLocal_placed {locals : List Local} {ty : Ty} (name : String) (isParameter : Bool)
    (h : Placed locals) (hty : ty.IsValue) : Placed (addLocal locals name ty isParameter) := by
  refine ⟨fun i l hi => ?_, fun l hl => ?_⟩
  · rcases Nat.lt_trichotomy i locals.length with hlt | rfl | hgt
    · rw [addLocal, List.getElem?_append_left hlt] at hi
      exact h.slot i l hi
    · rw [addLocal, List.getElem?_append_right (Nat.le_refl _)] at hi
      simp only [Nat.sub_self, List.getElem?_cons_zero, Option.some.injEq] at hi
      rw [← hi]
    · rw [List.getElem?_eq_none (by simp [addLocal]; omega)] at hi
      cases hi
  · rcases List.mem_append.1 hl with hl | hl
    · exact h.isValue l hl
    · rw [List.mem_singleton.1 hl]
      exact hty

section
variable {fs : List Function}

mutual

theorem Sentence.check_wellTyped (hf : Callable fs) : ∀ {s : Sentence} {locals : List Local},
    Placed locals → s.Sound → (s.check fs locals).reports = [] →
      Grows locals (s.check fs locals).value.locals ∧
        ActionsWellTyped fs (s.check fs locals).value.locals (s.check fs locals).value.actions
  | .declare name typeName l, locals, hl, hs, h => by
    have hty := lookupType_value (List.append_eq_nil_iff.1 h).1
    have hvalue := Ty.isValue_of_startsWord hs hty
    exact ⟨⟨addLocal_placed _ _ hl hvalue, [_], rfl, by simp⟩, trivial⟩
  | .express cs, locals, hl, hs, h => by
    have he := lookupClauses_hasType hf hl hs.1 hs.2 (List.append_eq_nil_iff.1 h).1
    exact ⟨.refl hl, ⟨_, he⟩, trivial⟩
  | .giveBack cs, locals, hl, hs, h => by
    have he := lookupClauses_hasType hf hl hs.1 hs.2 (List.append_eq_nil_iff.1 h).1
    exact ⟨.refl hl, ⟨_, he⟩, trivial⟩
  | .when cs body, locals, hl, hs, h => by
    simp only [Sentence.check, Checked.reports_bind, Checked.reports_pure, List.append_eq_nil_iff] at h
    have he := lookupClauses_hasType hf hl hs.1.1 hs.1.2 h.1
    obtain ⟨hg, hb⟩ := checkSentences_wellTyped hf hl hs.2 h.2.1
    exact ⟨hg, ⟨⟨_, he.mono (.refl fs) hg.isPrefix⟩, hb⟩, trivial⟩
  | .whenElse cs body otherwise, locals, hl, hs, h => by
    simp only [Sentence.check, Checked.reports_bind, Checked.reports_pure, List.append_eq_nil_iff] at h
    have he := lookupClauses_hasType hf hl hs.1.1 hs.1.2 h.1
    obtain ⟨hg, hb⟩ := checkSentences_wellTyped hf hl hs.2.1 h.2.1
    obtain ⟨hg₂, ho⟩ := checkSentences_wellTyped hf hg.placed hs.2.2 h.2.2.1
    have hb₂ := hb.mono (.refl fs) hg₂.isPrefix
    exact ⟨hg.trans hg₂, ⟨⟨_, he.mono (.refl fs) (hg.trans hg₂).isPrefix⟩, hb₂, ho⟩, trivial⟩
  | .loop cs body, locals, hl, hs, h => by
    simp only [Sentence.check, Checked.reports_bind, Checked.reports_pure, List.append_eq_nil_iff] at h
    have he := lookupClauses_hasType hf hl hs.1.1 hs.1.2 h.1
    obtain ⟨hg, hb⟩ := checkSentences_wellTyped hf hl hs.2 h.2.1
    exact ⟨hg, ⟨⟨_, he.mono (.refl fs) hg.isPrefix⟩, hb⟩, trivial⟩

theorem checkSentences_wellTyped (hf : Callable fs) : ∀ {ss : List Sentence} {locals : List Local},
    Placed locals → SentencesSound ss → (checkSentences fs locals ss).reports = [] →
      Grows locals (checkSentences fs locals ss).value.locals ∧
        ActionsWellTyped fs (checkSentences fs locals ss).value.locals
          (checkSentences fs locals ss).value.actions
  | [], _, hl, _, _ => ⟨.refl hl, trivial⟩
  | s :: ss, locals, hl, hs, h => by
    simp only [checkSentences, Checked.reports_bind, Checked.reports_pure, List.append_eq_nil_iff] at h
    obtain ⟨hg, ha⟩ := Sentence.check_wellTyped hf hl hs.1 h.1
    obtain ⟨hg₂, has⟩ := checkSentences_wellTyped hf hg.placed hs.2 h.2.1
    exact ⟨hg.trans hg₂, actionsWellTyped_append (ha.mono (.refl fs) hg₂.isPrefix) has⟩

end

end

/-! ## Functions -/

/-- Locals for parameters, behind those that are there. -/
theorem foldl_addLocal : ∀ (ps : List (PatternPart × Ty)) (locals : List Local), Placed locals →
    (∀ p ∈ ps, p.2.IsValue) → ∃ ls : List Local,
      ps.foldl (fun locals (part, ty) => addLocal locals part.name ty true) locals = locals ++ ls ∧
        Placed (locals ++ ls) ∧ ls.map Local.name = ps.map (fun p => p.1.name) ∧
          ls.map Local.type = ps.map Prod.snd ∧ ∀ l ∈ ls, l.isParameter = true
  | [], locals, hl, _ => ⟨[], by simpa using hl⟩
  | (part, ty) :: ps, locals, hl, hps => by
    have hadd := addLocal_placed part.name true hl (hps (part, ty) (by simp))
    obtain ⟨ls, heq, hplaced, hname, htype, hparam⟩ :=
      foldl_addLocal ps _ hadd fun p hp => hps p (by simp [hp])
    refine ⟨⟨part.name, locals.length, ty, true⟩ :: ls, ?_, ?_, ?_, ?_, ?_⟩
    · rw [List.foldl_cons, heq, addLocal, List.append_assoc]
      rfl
    · rwa [addLocal, List.append_assoc] at hplaced
    · rw [List.map_cons, hname]
      rfl
    · rw [List.map_cons, htype]
      rfl
    · exact List.forall_mem_cons.2 ⟨rfl, hparam⟩

theorem Pattern.length_parameters (p : Pattern) :
    (p.parts.filterMap PatternPart.typeName?).length = p.parameters.length := by
  rw [Pattern.parameters]
  induction p.parts with
  | nil => rfl
  | cons part parts ih =>
    cases part with
    | word name => exact ih
    | parameter name typeName => exact congrArg (· + 1) ih

theorem Function.Signed.length_eq {f : Function} (h : f.Signed) :
    f.parameterTypes.length = f.pattern.parameters.length := by
  have := congrArg List.length h.parameterTypes
  rw [List.length_map, List.length_map, Pattern.length_parameters] at this
  exact this.symm

theorem parameterLocals_laidOut {f : Function} (hs : f.Signed) (hv : ∀ ty ∈ f.parameterTypes, ty.IsValue) :
    Placed f.parameterLocals ∧
      f.parameterLocals.map Local.name = f.pattern.parameters.map PatternPart.name ∧
        f.parameterLocals.map Local.type = f.parameterTypes ∧
          ∀ l ∈ f.parameterLocals, l.isParameter = true := by
  have hlen := hs.length_eq
  obtain ⟨ls, heq, hplaced, hname, htype, hparam⟩ :=
    foldl_addLocal (f.pattern.parameters.zip f.parameterTypes) [] ⟨by simp, by simp⟩
      fun p hp => hv _ (List.of_mem_zip hp).2
  rw [List.nil_append] at heq hplaced
  have hparts : (f.pattern.parameters.zip f.parameterTypes).map (fun p => p.1.name) =
      f.pattern.parameters.map PatternPart.name := by
    have hfst : (f.pattern.parameters.zip f.parameterTypes).map Prod.fst = f.pattern.parameters :=
      List.map_fst_zip (by omega)
    rw [← congrArg (List.map PatternPart.name) hfst, List.map_map]
    rfl
  rw [List.map_snd_zip (by omega)] at htype
  unfold Function.parameterLocals
  rw [heq]
  exact ⟨hplaced, hname.trans hparts, htype, hparam⟩

/-- A function with its body filled in: nothing else changed, and it is well typed. -/
structure Function.FilledBy (fs : List Function) (f g : Function) : Prop where
  face : f.SameFace g
  symbol : g.symbol? = f.symbol?
  pattern : g.pattern = f.pattern
  wellTyped : g.WellTyped fs

theorem Function.fill_filledBy {fs : List Function} {f : Function} {body : List Sentence}
    (hf : Callable fs) (hs : f.Signed) (hv : ∀ ty ∈ f.parameterTypes, ty.IsValue)
    (hbody : SentencesSound body) (h : (f.fill fs body).reports = []) :
    f.FilledBy fs (f.fill fs body).value := by
  obtain ⟨hplaced, hname, htype, hparam⟩ := parameterLocals_laidOut hs hv
  simp only [Function.fill, Checked.reports_bind, List.append_eq_nil_iff] at h
  obtain ⟨hg, ha⟩ := checkSentences_wellTyped hf hplaced hbody h.1
  simp only [Function.fill, Checked.value_bind]
  split
  · next symbol locals body' hrole =>
    obtain ⟨hmore, ls, heq, hls⟩ := hg
    refine ⟨⟨?_, rfl, rfl⟩, ?_, rfl, ⟨hmore, _, ls, heq, hname, htype, hparam, hls⟩, ha⟩
    · simp [Function.isAssignment, hrole]
    · simp [Function.symbol?, hrole]
  · next hrole =>
    refine ⟨.refl f, rfl, rfl, ?_⟩
    rw [Function.WellTyped, Checked.value_pure]
    split
    · next symbol locals body' h' => exact absurd h' (hrole symbol locals body')
    · trivial

theorem fillAll_filledBy {fs : List Function} (hf : Callable fs)
    {own : List (Function × List Sentence)}
    (ho : ∀ o ∈ own, o.1.Signed ∧ (∀ ty ∈ o.1.parameterTypes, ty.IsValue) ∧ SentencesSound o.2)
    (h : (fillAll fs own).reports = []) :
    List.Forall₂ (Function.FilledBy fs) (own.map Prod.fst) (fillAll fs own).value := by
  induction own with
  | nil => exact .nil
  | cons o own ih =>
    obtain ⟨f, body⟩ := o
    obtain ⟨⟨hs, hv, hbody⟩, hown⟩ := List.forall_mem_cons.1 ho
    by_cases hfill : (f.fill fs body).reports.isEmpty = true
    · simp only [fillAll, hfill, if_true] at h ⊢
      exact .cons (Function.fill_filledBy hf hs hv hbody (List.isEmpty_iff.1 hfill)) (ih hown h)
    · simp only [fillAll, hfill, Bool.false_eq_true, if_false] at h
      exact absurd (List.isEmpty_iff.2 h) hfill

/-! ## Functions that are built in -/

/-- A function that is built in makes sense: what does its work takes its arguments,
    and its types are those of values, but for what an assignment stores. -/
def Function.SoundBuiltin (f : Function) : Prop :=
  f.isUser = false ∧ f.arityFits = true ∧ f.returnType.IsValue ∧
    (f.isAssignment = false → ∀ ty ∈ f.parameterTypes, ty.IsValue) ∧
      (f.isAssignment = true → f.parameterTypes.length = 2)

instance (f : Function) : Decidable f.SoundBuiltin :=
  inferInstanceAs (Decidable (_ ∧ _))

/-- **All that is built in makes sense**, looked through once. -/
theorem builtins_sound : (signAll 1 builtins).reports = [] ∧ (∀ f ∈ builtins, f.isUser = false) ∧
    ∀ f ∈ signedBuiltins, f.SoundBuiltin := by
  decide +kernel

theorem builtins_reports : (signAll 1 builtins).reports = [] :=
  builtins_sound.1

theorem signedBuiltins_sound : ∀ f ∈ signedBuiltins, f.SoundBuiltin :=
  builtins_sound.2.2

theorem length_signedBuiltins : signedBuiltins.length = builtins.length := by
  simpa [signedBuiltins] using congrArg List.length (signAll_written builtins_reports)

theorem callable_builtins : Callable signedBuiltins where
  signed := signAll_signed builtins_reports
  returnType f hf := (signedBuiltins_sound f hf).2.2.1
  parameterTypes f hf := (signedBuiltins_sound f hf).2.2.2.1
  assignment f hf := (signedBuiltins_sound f hf).2.2.2.2

theorem Callable.append {fs gs : List Function} (hf : Callable fs) (hg : Callable gs) :
    Callable (fs ++ gs) where
  signed := List.forall_mem_append.2 ⟨hf.signed, hg.signed⟩
  returnType := List.forall_mem_append.2 ⟨hf.returnType, hg.returnType⟩
  parameterTypes := List.forall_mem_append.2 ⟨hf.parameterTypes, hg.parameterTypes⟩
  assignment := List.forall_mem_append.2 ⟨hf.assignment, hg.assignment⟩

/-! ## Trees -/

/-- The functions of a document with their types. -/
def Document.signed (d : Document) : List Function :=
  (signAll 1 (d.definitions.map Definition.declared)).value

section
variable {d : Document} (hr : (signAll 1 (d.definitions.map Definition.declared)).reports = [])
include hr

theorem Document.symbols_signed :
    d.signed.map Function.symbol? = (List.range' 1 d.definitions.length).map some := by
  have huser : ∀ f ∈ d.definitions.map Definition.declared, f.isUser = true := by
    simp [Definition.declared, Function.isUser]
  have := signAll_symbols huser hr
  rwa [List.length_map] at this

theorem Document.written_signed {f : Function} (hf : f ∈ d.signed) :
    ∃ g ∈ d.definitions, f.pattern = g.pattern ∧ f.returnName = g.returnName := by
  have hmem := List.mem_map_of_mem (f := fun f : Function => (f.pattern, f.returnName)) hf
  rw [Document.signed, signAll_written hr, List.map_map, List.mem_map] at hmem
  obtain ⟨g, hg, heq⟩ := hmem
  exact ⟨g, hg, (Prod.mk.inj heq).1.symm, (Prod.mk.inj heq).2.symm⟩

theorem Document.isValue_signed (hd : d.Sound) {f : Function} (hf : f ∈ d.signed) :
    f.returnType.IsValue ∧ ∀ ty ∈ f.parameterTypes, ty.IsValue := by
  obtain ⟨g, hg, hpattern, hname⟩ := written_signed hr hf
  have hs := signAll_signed hr f hf
  refine ⟨Ty.isValue_of_startsWord (hname ▸ (hd g hg).returnName) hs.returnType, fun ty hty => ?_⟩
  have hmem : some ty ∈ f.parameterTypes.map some := List.mem_map_of_mem hty
  rw [← hs.parameterTypes, List.mem_map] at hmem
  obtain ⟨name, hname, hnamed⟩ := hmem
  obtain ⟨part, hpart, htype⟩ := List.mem_filterMap.1 hname
  exact Ty.isValue_of_startsWord ((hd g hg).parts part (hpattern ▸ hpart) name htype) hnamed

theorem Document.callable_signed (hd : d.Sound) : Callable d.signed := by
  have hna : ∀ f ∈ d.signed, f.isAssignment = false := by
    intro f hf
    have hmem := List.mem_map_of_mem (f := Function.symbol?) hf
    rw [symbols_signed hr, List.mem_map] at hmem
    obtain ⟨n, -, hn⟩ := hmem
    exact (Function.isUser_of_symbol? hn.symm).2
  exact ⟨signAll_signed hr, fun f hf => (isValue_signed hr hd hf).1,
    fun f hf _ => (isValue_signed hr hd hf).2, fun f hf h => by rw [hna f hf] at h; cases h⟩

end

theorem sameFaces_of_forall₂ (fs : List Function) {gs hs : List Function} (h : List.Forall₂ Function.SameFace gs hs) :
    SameFaces (fs ++ gs) (fs ++ hs) := by
  intro i f hi
  rcases Nat.lt_or_ge i fs.length with hlt | hge
  · rw [List.getElem?_append_left hlt] at hi ⊢
    exact ⟨f, hi, .refl f⟩
  · rw [List.getElem?_append_right hge] at hi ⊢
    obtain ⟨hj, rfl⟩ := List.getElem?_eq_some_iff.1 hi
    exact ⟨_, List.getElem?_eq_getElem (h.length_eq ▸ hj), h.get hj (h.length_eq ▸ hj)⟩

theorem Function.WellTyped.mono {fs gs : List Function} {f : Function} (hfs : SameFaces fs gs)
    (h : f.WellTyped fs) : f.WellTyped gs := by
  unfold Function.WellTyped at *
  split at h
  · exact ⟨h.1, h.2.mono hfs (List.prefix_refl _)⟩
  · trivial

theorem exists_of_forall₂ {α β : Type} {R : α → β → Prop} {xs : List α} {ys : List β}
    (h : List.Forall₂ R xs ys) {y : β} (hy : y ∈ ys) : ∃ x ∈ xs, R x y := by
  induction h with
  | nil => cases hy
  | cons hxy _ ih =>
    rcases List.mem_cons.1 hy with rfl | hy
    · exact ⟨_, by simp, hxy⟩
    · obtain ⟨x, hx, hR⟩ := ih hy
      exact ⟨x, by simp [hx], hR⟩

theorem map_eq_of_forall₂ {α β γ : Type} {f : α → γ} {g : β → γ} {xs : List α} {ys : List β}
    (h : List.Forall₂ (fun x y => g y = f x) xs ys) : ys.map g = xs.map f := by
  induction h with
  | nil => rfl
  | cons hxy _ ih => rw [List.map_cons, List.map_cons, hxy, ih]

section
variable {d : Document} {gs : List Function}
  (hr : (signAll 1 (d.definitions.map Definition.declared)).reports = [])
  (h : List.Forall₂ (Function.FilledBy (signedBuiltins ++ d.signed)) d.signed gs)
include hr h

theorem symbols_of_filled : gs.map Function.symbol? = (List.range' 1 gs.length).map some := by
  have hsymbols := Document.symbols_signed hr
  have hlen : gs.length = d.definitions.length := by
    simpa [← h.length_eq] using congrArg List.length hsymbols
  rw [map_eq_of_forall₂ (h.imp fun f g hfg => hfg.symbol), hsymbols, hlen]

theorem userFunctions_of_filled : Tree.userFunctions ⟨signedBuiltins ++ gs⟩ = gs := by
  have huser : ∀ g ∈ gs, g.isUser = true := by
    intro g hg
    have hmem := List.mem_map_of_mem (f := Function.symbol?) hg
    rw [symbols_of_filled hr h, List.mem_map] at hmem
    obtain ⟨n, -, hn⟩ := hmem
    exact (Function.isUser_of_symbol? hn.symm).1
  rw [Tree.userFunctions, List.filter_append, List.filter_eq_nil_iff.2, List.filter_eq_self.2 huser,
    List.nil_append]
  intro f hf
  simp [(signedBuiltins_sound f hf).1]

theorem patterns_of_filled : gs.map Function.pattern = d.definitions.map Definition.pattern := by
  have hwritten := congrArg (List.map Prod.fst) (signAll_written hr)
  simp only [List.map_map] at hwritten
  rw [map_eq_of_forall₂ (h.imp fun f g hfg => hfg.pattern)]
  exact hwritten

theorem Tree.wellTyped_of_filled (hd : d.Sound) : Tree.WellTyped ⟨signedBuiltins ++ gs⟩ := by
  have hfaces := sameFaces_of_forall₂ signedBuiltins (h.imp fun f g hfg => hfg.face)
  have husers := userFunctions_of_filled hr h
  refine ⟨by rw [husers], by rw [husers, symbols_of_filled hr h], ?_, ?_, ?_⟩ <;> rw [husers] <;>
    intro g hg <;> obtain ⟨f, hf, hfg⟩ := exists_of_forall₂ h hg
  · rw [hfg.face.returnType]
    exact (Document.isValue_signed hr hd hf).1
  · rw [hfg.face.parameterTypes]
    exact (Document.isValue_signed hr hd hf).2
  · exact hfg.wellTyped.mono hfaces

end

/-- **The tree of a sound document is well typed, if nothing was reported**, and
    its functions with bodies are those of the document. -/
theorem Tree.wellTyped_of_document {d : Document} (hd : d.Sound)
    (h : (Tree.ofDocument true d).reports = []) :
    (Tree.ofDocument true d).value.WellTyped ∧
      (Tree.ofDocument true d).value.userFunctions.map Function.pattern =
        d.definitions.map Definition.pattern := by
  have happend := signAll_append (d.definitions.map Definition.declared) builtins_sound.2.1 builtins_reports
  obtain ⟨hvalue, hreports⟩ := happend
  change (signAll 1 d.declared).value = signedBuiltins ++ d.signed at hvalue
  change (signAll 1 d.declared).reports = _ at hreports
  simp only [Tree.ofDocument, if_true] at h ⊢
  by_cases hsigned : (signAll 1 d.declared).reports.isEmpty = true
  · have hr : (signAll 1 (d.definitions.map Definition.declared)).reports = [] :=
      hreports ▸ List.isEmpty_iff.1 hsigned
    have hlen : d.signed.length = d.definitions.length := by
      simpa using congrArg List.length (Document.symbols_signed hr)
    have hcallable := callable_builtins.append (Document.callable_signed hr hd)
    simp only [hsigned, if_true, hvalue] at h ⊢
    rw [← length_signedBuiltins, List.drop_left] at h ⊢
    rw [List.take_left]
    have hown : ∀ o ∈ d.signed.zip (d.definitions.map Definition.body),
        o.1.Signed ∧ (∀ ty ∈ o.1.parameterTypes, ty.IsValue) ∧ SentencesSound o.2 := by
      intro o ho
      obtain ⟨hf, hbody⟩ := List.of_mem_zip ho
      obtain ⟨g, hg, hgo⟩ := List.mem_map.1 hbody
      exact ⟨signAll_signed hr _ hf, (Document.isValue_signed hr hd hf).2, hgo ▸ (hd g hg).body⟩
    have hfilled := fillAll_filledBy hcallable hown h
    rw [List.map_fst_zip (by simp [hlen])] at hfilled
    refine ⟨Tree.wellTyped_of_filled hr hfilled hd, ?_⟩
    rw [userFunctions_of_filled hr hfilled, patterns_of_filled hr hfilled]
  · simp only [hsigned, Bool.false_eq_true, if_false] at h
    exact absurd (List.isEmpty_iff.2 h) hsigned

/-- **What compiles has a well-typed tree, and the program of that tree**; a
    function with a body for each definition, in the same order. -/
theorem wellTyped_of_compile {source : String} {p : Program} (h : compile source = .ok p) :
    let a := Analysis.ofSource source
    a.tree.WellTyped ∧ p = a.tree.program ∧
      a.tree.userFunctions.map Function.pattern = a.document.definitions.map Definition.pattern := by
  obtain ⟨hreports, rfl⟩ := compile_eq_ok_iff.1 h
  obtain ⟨hreading, hchecking⟩ := List.append_eq_nil_iff.1 hreports
  have hd := ofTokens_sound (ofSource_sound source) (List.append_eq_nil_iff.1 hreading).2
  rw [hreading] at hchecking
  have hread : (Analysis.ofSource source).readingReports = [] := hreading
  have htree : (Analysis.ofSource source).tree =
      (Tree.ofDocument true (Analysis.ofSource source).document).value := by
    show (Tree.ofDocument (Analysis.ofSource source).readingReports.isEmpty _).value = _
    rw [hread]
    rfl
  obtain ⟨hwell, hpatterns⟩ := Tree.wellTyped_of_document hd hchecking
  exact ⟨htree ▸ hwell, rfl, htree ▸ hpatterns⟩

end DanishProse

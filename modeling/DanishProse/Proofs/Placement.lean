/-
  Documents checked one definition at a time, and the same definitions at other
  places.

  * `Document.Clean`: nothing is reported on any signature or body.  This is so if
    nothing is reported on the document (`Document.clean_of_reports`), and its tree
    then has the functions that its definitions give (`Tree.ofDocument_of_clean`);
  * `Document.Places σ d e`: each definition of `d` stands in `e` too, at the place
    that `σ` gives;
  * `Document.Places.embeds`: if the calls of `d` find the same functions among
    those of `e`, the tree of `d` has its counterpart in that of `e`;
  * `Analysis.clean_of_reports`: what a text without reports is read as is clean.
-/
import DanishProse.Proofs.Embedding
import DanishProse.Proofs.Spelling

namespace DanishProse

/-! ## One definition at a time -/

/-- The function of a definition with its types, when it has the number `n`. -/
def Definition.signed (x : Definition) (n : Nat) : Function :=
  (x.declared.sign n).value

/-- The body of a definition looked up among functions. -/
def Definition.check (fs : List Function) (n : Nat) (x : Definition) : Checked Function :=
  (x.signed n).fill fs x.body

/-- The functions that bodies are looked up among. -/
def Document.functions (d : Document) : List Function :=
  signedBuiltins ++ d.definitions.mapIdx fun k x => x.signed (k + 1)

/-- There is nothing to report on any signature, nor on any body. -/
structure Document.Clean (d : Document) : Prop where
  signatures : ∀ x ∈ d.definitions, (x.declared.sign 0).reports = []
  bodies : ∀ (k : Nat) (x : Definition), d.definitions[k]? = some x →
    (x.check d.functions (k + 1)).reports = []

/-- What is reported on a signature does not depend on the number of the function. -/
theorem Function.reports_sign (f : Function) (m n : Nat) : (f.sign m).reports = (f.sign n).reports := rfl

theorem isUser_declared (x : Definition) : x.declared.isUser = true := rfl

theorem signAll_of_clean {ds : List Definition} (h : ∀ x ∈ ds, (x.declared.sign 0).reports = []) (n : Nat) :
    signAll n (ds.map Definition.declared) = ⟨ds.mapIdx fun k x => x.signed (n + k), []⟩ := by
  induction ds generalizing n with
  | nil => rfl
  | cons x ds ih =>
    obtain ⟨hx, hds⟩ := List.forall_mem_cons.1 h
    have hempty : (x.declared.sign n).reports.isEmpty = true :=
      List.isEmpty_iff.2 ((x.declared.reports_sign n 0).trans hx)
    have hshift : (fun k (y : Definition) => y.signed (n + 1 + k)) = fun k y => y.signed (n + (k + 1)) := by
      funext k y
      rw [Nat.add_assoc, Nat.add_comm 1 k]
    rw [List.map_cons, signAll, isUser_declared, List.mapIdx_cons]
    simp only [hempty, if_true]
    rw [ih hds (n + 1), hshift]
    rfl

theorem clean_of_signAll {ds : List Definition} {n : Nat}
    (h : (signAll n (ds.map Definition.declared)).reports = []) :
    ∀ x ∈ ds, (x.declared.sign 0).reports = [] := by
  induction ds generalizing n with
  | nil => simp
  | cons x ds ih =>
    obtain ⟨hx, hds, -⟩ := signAll_cons h
    exact List.forall_mem_cons.2 ⟨(x.declared.reports_sign 0 n).trans hx, ih hds⟩

theorem fillAll_of_clean {fs : List Function} {own : List (Function × List Sentence)}
    (h : ∀ o ∈ own, (o.1.fill fs o.2).reports = []) :
    fillAll fs own = ⟨own.map fun o => (o.1.fill fs o.2).value, []⟩ := by
  induction own with
  | nil => rfl
  | cons o own ih =>
    obtain ⟨ho, hown⟩ := List.forall_mem_cons.1 h
    have hempty : (o.1.fill fs o.2).reports.isEmpty = true := List.isEmpty_iff.2 ho
    simp only [fillAll, hempty, if_true, ih hown, List.map_cons]

theorem clean_of_fillAll {fs : List Function} {own : List (Function × List Sentence)}
    (h : (fillAll fs own).reports = []) : ∀ o ∈ own, (o.1.fill fs o.2).reports = [] := by
  induction own with
  | nil => simp
  | cons o own ih =>
    by_cases hempty : (o.1.fill fs o.2).reports.isEmpty = true
    · simp only [fillAll, hempty, if_true] at h
      exact List.forall_mem_cons.2 ⟨List.isEmpty_iff.1 hempty, ih h⟩
    · simp only [fillAll, hempty, Bool.false_eq_true, if_false] at h
      exact absurd (List.isEmpty_iff.2 h) hempty

theorem zip_bodies (ds : List Definition) (f : Nat → Definition → Function) :
    (ds.mapIdx f).zip (ds.map Definition.body) = ds.mapIdx fun k x => (f k x, x.body) := by
  induction ds generalizing f with
  | nil => rfl
  | cons x ds ih => rw [List.mapIdx_cons, List.map_cons, List.zip_cons_cons, ih, List.mapIdx_cons]

section
variable {d : Document}

theorem signAll_declared (h : ∀ x ∈ d.definitions, (x.declared.sign 0).reports = []) :
    signAll 1 d.declared = ⟨d.functions, []⟩ := by
  have hown := signAll_of_clean h 1
  have hshift : (fun k (x : Definition) => x.signed (1 + k)) = fun k x => x.signed (k + 1) := by
    funext k x
    rw [Nat.add_comm]
  obtain ⟨hvalue, hreports⟩ :=
    signAll_append (d.definitions.map Definition.declared) builtins_sound.2.1 builtins_reports
  rw [hown, hshift] at hvalue hreports
  change (signAll 1 d.declared).value = d.functions at hvalue
  change (signAll 1 d.declared).reports = [] at hreports
  rw [← hvalue, ← hreports]

/-- The tree of a document with nothing to report on its signatures. -/
theorem Tree.ofDocument_of_signatures (h : ∀ x ∈ d.definitions, (x.declared.sign 0).reports = []) :
    let filled := fillAll d.functions (d.definitions.mapIdx fun k x => (x.signed (k + 1), x.body))
    Tree.ofDocument true d = ⟨⟨signedBuiltins ++ filled.value⟩, filled.reports⟩ := by
  rw [Tree.ofDocument_eq_ofSigned, Tree.ofSigned, signAll_declared h]
  simp only [List.isEmpty_nil, if_true]
  have hdrop : d.functions.drop builtins.length = d.definitions.mapIdx fun k x => x.signed (k + 1) := by
    rw [← length_signedBuiltins, Document.functions, List.drop_left]
  have htake : d.functions.take builtins.length = signedBuiltins := by
    rw [← length_signedBuiltins, Document.functions, List.take_left]
  rw [hdrop, htake, zip_bodies]

/-- **The tree of a document with nothing to report on it.** -/
theorem Tree.ofDocument_of_clean (h : d.Clean) : Tree.ofDocument true d =
    ⟨⟨signedBuiltins ++ d.definitions.mapIdx fun k x => (x.check d.functions (k + 1)).value⟩, []⟩ := by
  have hfill : ∀ o ∈ d.definitions.mapIdx fun k x => (x.signed (k + 1), x.body),
      (o.1.fill d.functions o.2).reports = [] := by
    intro o ho
    obtain ⟨k, hk, rfl⟩ := List.mem_mapIdx.1 ho
    exact h.bodies k _ (List.getElem?_eq_getElem hk)
  have hmap : (d.definitions.mapIdx fun k x => (x.signed (k + 1), x.body)).map
      (fun o => (o.1.fill d.functions o.2).value) =
        d.definitions.mapIdx fun k x => (x.check d.functions (k + 1)).value := by
    refine List.ext_getElem? fun k => ?_
    rw [List.getElem?_map, List.getElem?_mapIdx, List.getElem?_mapIdx, Option.map_map]
    rfl
  rw [Tree.ofDocument_of_signatures h.signatures, fillAll_of_clean hfill, hmap]

/-- A document on which nothing is reported is clean throughout. -/
theorem Document.clean_of_reports (h : (Tree.ofDocument true d).reports = []) : d.Clean := by
  have hsigned : ∀ x ∈ d.definitions, (x.declared.sign 0).reports = [] := by
    rw [Tree.ofDocument_eq_ofSigned, Tree.ofSigned] at h
    by_cases hempty : (signAll 1 d.declared).reports.isEmpty = true
    · obtain ⟨-, hreports⟩ :=
        signAll_append (d.definitions.map Definition.declared) builtins_sound.2.1 builtins_reports
      change (signAll 1 d.declared).reports = _ at hreports
      rw [List.isEmpty_iff.1 hempty] at hreports
      exact clean_of_signAll hreports.symm
    · simp only [hempty, Bool.false_eq_true, if_false] at h
      exact absurd (List.isEmpty_iff.2 h) hempty
  rw [Tree.ofDocument_of_signatures hsigned] at h
  refine ⟨hsigned, fun k x hx => ?_⟩
  obtain ⟨hk, rfl⟩ := List.getElem?_eq_some_iff.1 hx
  exact clean_of_fillAll h _ (List.mem_mapIdx.2 ⟨k, hk, rfl⟩)

end

/-! ## Calls -/

/-- A call looks among the functions in front first. -/
theorem lookupFunction_append (fs gs : List Function) (ws : List Wanted) : lookupFunction (fs ++ gs) ws =
    (lookupFunction fs ws).or ((gs.zipIdx fs.length).find? fun entry => entry.1.accepts ws) := by
  rw [lookupFunction, List.zipIdx_append, List.find?_append, lookupFunction, Nat.zero_add]

theorem lookupFunction_alike (fs : List Function) {ws ws' : List Wanted}
    (h : List.Forall₂ Wanted.Alike ws ws') : lookupFunction fs ws' = lookupFunction fs ws := by
  have haccepts (f : Function) : f.accepts ws' = f.accepts ws :=
    (fitAll_eq (List.forall₂_same.2 fun part _ => .refl part) h).symm
  unfold lookupFunction
  simp only [haccepts]

/-! ## Other places -/

/-- The definitions of one document stand in another one, at the places that `σ`
    gives. -/
def Document.Places (σ : Nat → Nat) (d e : Document) : Prop :=
  ∀ (k : Nat) (x : Definition), d.definitions[k]? = some x → e.definitions[σ k]? = some x

/-- Functions that are built in stay, and those behind them go where `σ` says. -/
def behindBuiltins (σ : Nat → Nat) (k : Nat) : Nat :=
  if k < builtins.length then k else builtins.length + σ (k - builtins.length)

theorem behindBuiltins_id : behindBuiltins id = id := by
  funext k
  unfold behindBuiltins
  split_ifs
  · rfl
  · simp only [id_eq]
    omega

/-- A place behind the functions that are built in. -/
theorem getElem?_behindBuiltins (fs : List Function) (σ : Nat → Nat) {k : Nat} (h : builtins.length ≤ k) :
    (signedBuiltins ++ fs)[behindBuiltins σ k]? = fs[σ (k - builtins.length)]? := by
  rw [behindBuiltins, if_neg (Nat.not_lt.2 h), ← length_signedBuiltins,
    List.getElem?_append_right (Nat.le_add_right _ _), Nat.add_sub_cancel_left]

/-- A function without a body calls nothing, so it corresponds to itself. -/
theorem Function.Alike.of_not_isUser {f : Function} (h : f.isUser = false) (ρ : Nat → Nat) : f.Alike ρ f := by
  refine ⟨.refl _, .refl _, rfl, rfl, ?_⟩
  unfold Function.isUser at h
  cases hrole : f.role with
  | intrinsic op => exact .intrinsic op
  | assignment => exact .assignment
  | native f => exact .native f
  | user symbol locals body => simp [hrole] at h

section
variable {σ : Nat → Nat} {d e : Document}

/-- The functions of one definition correspond, whatever their numbers. -/
theorem Definition.signed_alike {ρ : Nat → Nat} (x : Definition) (h : (x.declared.sign 0).reports = []) (m n : Nat) :
    (x.signed m).Alike ρ (x.signed n) := by
  have hdeclared : x.declared.Alike ρ x.declared :=
    ⟨.refl _, .refl _, rfl, rfl, .user 0 0 [] .nil⟩
  have hsign : (x.declared.sign m).Alike False (Function.Alike ρ) (x.declared.sign n) :=
    Function.sign_alike hdeclared m n
  exact (hsign (.inr ((x.declared.reports_sign m 0).trans h))).1

/-- **A body that is looked up among functions that correspond** is clean again, and
    gives a function that corresponds. -/
theorem Definition.check_alike {ρ : Nat → Nat} {fs gs : List Function} (hr : Resolves False ρ fs gs)
    {x : Definition} (hx : (x.declared.sign 0).reports = []) {m : Nat} (h : (x.check fs m).reports = [])
    (n : Nat) :
    (x.check gs n).reports = [] ∧ (x.check fs m).value.Alike ρ (x.check gs n).value := by
  have hbody : (x.check fs m).Alike False (Function.Alike ρ) (x.check gs n) :=
    Function.fill_alike hr (x.signed_alike hx m n) (SentencesAlike.refl x.body)
  obtain ⟨hvalue, hreports⟩ := hbody (.inr h)
  rw [h] at hreports
  exact ⟨List.forall₂_nil_left_iff.1 hreports, hvalue⟩

theorem Tree.functions_of_clean (h : d.Clean) : (Tree.ofDocument true d).value.functions =
    signedBuiltins ++ d.definitions.mapIdx fun k x => (x.check d.functions (k + 1)).value := by
  rw [Tree.ofDocument_of_clean h]

/-- The tree of a clean document is well typed, with a function for each definition. -/
theorem Tree.wellTyped_of_clean (hds : d.Sound) (hd : d.Clean) :
    (Tree.ofDocument true d).value.WellTyped ∧
      (Tree.ofDocument true d).value.userFunctions.length = d.definitions.length := by
  obtain ⟨ht, hpatterns⟩ := Tree.wellTyped_of_document hds (by rw [Tree.ofDocument_of_clean hd])
  have hcount := congrArg List.length hpatterns
  rw [List.length_map, List.length_map] at hcount
  exact ⟨ht, hcount⟩

variable (hp : d.Places σ e) (hr : Resolves False (behindBuiltins σ) d.functions e.functions)
  (hd : d.Clean) (he : e.Clean)
include hp hr hd he

/-- **The functions of definitions at other places correspond.** -/
theorem Document.Places.function (k : Nat) (f : Function)
    (hf : (Tree.ofDocument true d).value.functions[k]? = some f) :
    ∃ g, (Tree.ofDocument true e).value.functions[behindBuiltins σ k]? = some g ∧
      f.Alike (behindBuiltins σ) g := by
  rw [Tree.functions_of_clean hd] at hf
  rw [Tree.functions_of_clean he]
  rcases Nat.lt_or_ge k builtins.length with hlt | hge
  · rw [List.getElem?_append_left (length_signedBuiltins ▸ hlt)] at hf
    rw [behindBuiltins, if_pos hlt, List.getElem?_append_left (length_signedBuiltins ▸ hlt)]
    exact ⟨f, hf, .of_not_isUser (signedBuiltins_sound f (List.mem_of_getElem? hf)).1 _⟩
  · rw [getElem?_behindBuiltins _ _ hge, List.getElem?_mapIdx]
    rw [List.getElem?_append_right (length_signedBuiltins ▸ hge), length_signedBuiltins,
      List.getElem?_mapIdx, Option.map_eq_some_iff] at hf
    obtain ⟨x, hx, rfl⟩ := hf
    rw [hp _ _ hx]
    refine ⟨_, rfl, ?_⟩
    exact (Definition.check_alike hr (hd.signatures x (List.mem_of_getElem? hx)) (hd.bodies _ x hx) _).2

/-- **The tree of a document has its counterpart where its definitions stand**, if the
    first one stands first. -/
theorem Document.Places.embeds (hds : d.Sound) (hes : e.Sound) (hfirst : σ 0 = 0) :
    Tree.Embeds (behindBuiltins σ) (Tree.ofDocument true d).value (Tree.ofDocument true e).value := by
  have hfunction := hp.function hr hd he
  refine ⟨hfunction, fun f hf => ?_⟩
  have ht := (Tree.wellTyped_of_clean hds hd).1.functions
  have hu := (Tree.wellTyped_of_clean hes he).1.functions
  have hplace : behindBuiltins σ builtins.length = builtins.length := by
    rw [behindBuiltins, if_neg (Nat.lt_irrefl _), Nat.sub_self, hfirst, Nat.add_zero]
  have hat : ∀ gs : List Function, (signedBuiltins ++ gs)[builtins.length]? = gs.head? := by
    intro gs
    rw [← length_signedBuiltins, List.getElem?_append_right (Nat.le_refl _), Nat.sub_self, List.head?_eq_getElem?]
  rw [ht, hu] at hfunction
  obtain ⟨g, hg, hfg⟩ := hfunction builtins.length f (by rw [hat, hf])
  rw [hplace, hat] at hg
  exact ⟨g, hg, hfg⟩

end

/-- A tree whose functions have counterparts has no more locals in any of them. -/
theorem Tree.Embeds.locals_lt {ρ : Nat → Nat} {t u : Tree} (h : t.Embeds ρ u) {n : Nat}
    (hu : ∀ g ∈ u.userFunctions, g.locals.length < n) : ∀ f ∈ t.userFunctions, f.locals.length < n := by
  intro f hf
  obtain ⟨hmem, huser⟩ := List.mem_filter.1 hf
  obtain ⟨k, hk⟩ := List.mem_iff_getElem?.1 hmem
  obtain ⟨g, hg, hfg⟩ := h.function k f hk
  rw [hfg.locals.length_eq]
  exact hu g (List.mem_filter.2 ⟨List.mem_of_getElem? hg, hfg.isUser_eq.trans huser⟩)

/-! ## Texts -/

/-- **What a text without reports is read as**: a document with nothing to report on
    it, whose tree is that of the text. -/
theorem Analysis.clean_of_reports {source : String} (h : (Analysis.ofSource source).reports = []) :
    Document.ofTokens true (Token.ofSource source).tokens = ((Analysis.ofSource source).document, []) ∧
      (Analysis.ofSource source).document.Sound ∧ (Analysis.ofSource source).document.Clean ∧
        (Analysis.ofSource source).tree = (Tree.ofDocument true (Analysis.ofSource source).document).value := by
  obtain ⟨hreading, hchecking⟩ := List.append_eq_nil_iff.1 h
  obtain ⟨hscanned, hfound⟩ := List.append_eq_nil_iff.1 hreading
  have hempty : (Token.ofSource source).reports.isEmpty = true := List.isEmpty_iff.2 hscanned
  have hdocument : Document.ofTokens true (Token.ofSource source).tokens =
      ((Analysis.ofSource source).document, []) := by
    change (Document.ofTokens (Token.ofSource source).reports.isEmpty _).2 = [] at hfound
    rw [hempty] at hfound
    refine Prod.ext ?_ hfound
    change _ = (Document.ofTokens (Token.ofSource source).reports.isEmpty _).1
    rw [hempty]
  have hsound := ofTokens_sound (ofSource_sound source) hfound
  have htree : (Analysis.ofSource source).tree =
      (Tree.ofDocument (Analysis.ofSource source).readingReports.isEmpty
        (Analysis.ofSource source).document).value := rfl
  have hread : (Analysis.ofSource source).readingReports = [] := hreading
  rw [hreading] at hchecking
  rw [hread] at htree
  exact ⟨hdocument, hsound, Document.clean_of_reports hchecking, htree⟩

end DanishProse

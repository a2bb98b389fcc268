/-
  Only the kinds and the words of tokens matter.

  * `Tree.ofDocument_alike`: like documents are checked alike, so that their trees
    correspond function by function, each at the same place;
  * `Tree.program_eq_of_alike`: well-typed trees that correspond have one program;
  * `compile_alike`: texts with like tokens have the same program, or like reports.
    So letter case, layout and comments make no difference.
-/
import DanishProse.Proofs.Recoding
import DanishProse.Proofs.Relocation

namespace DanishProse

/-! ## Functions one by one -/

/-- Functions that correspond one by one, each at the same place. -/
abbrev FunctionsAlike (fs gs : List Function) : Prop :=
  List.Forall₂ (Function.Alike id) fs gs

theorem FunctionsAlike.refl (fs : List Function) : FunctionsAlike fs fs :=
  List.forall₂_same.2 fun f _ => .refl f

/-- Functions that correspond are found together. -/
theorem find?_zipIdx_alike {fs gs : List Function} (h : FunctionsAlike fs gs) {ws ws' : List Wanted}
    (hw : List.Forall₂ Wanted.Alike ws ws') (n : Nat) :
    Option.Rel (fun found found' => found.1.Alike id found'.1 ∧ found'.2 = found.2)
      ((fs.zipIdx n).find? fun entry => entry.1.accepts ws)
      ((gs.zipIdx n).find? fun entry => entry.1.accepts ws') := by
  induction h generalizing n with
  | nil => exact .none
  | @cons f g fs gs hfg _ ih =>
    have haccepts : f.accepts ws = g.accepts ws' := fitAll_eq hfg.pattern hw
    rw [List.zipIdx_cons, List.zipIdx_cons, List.find?_cons, List.find?_cons]
    dsimp only
    rw [haccepts]
    split
    · exact .some ⟨hfg, rfl⟩
    · exact ih (n + 1)

theorem FunctionsAlike.resolves {fs gs : List Function} (h : FunctionsAlike fs gs) (always : Prop) :
    Resolves always id fs gs where
  found := by
    intro ws ws' hw f i hfound
    have hrel := find?_zipIdx_alike h hw 0
    unfold lookupFunction at hfound ⊢
    rw [hfound] at hrel
    generalize (gs.zipIdx.find? fun entry => entry.1.accepts ws') = found' at hrel ⊢
    cases hrel with
    | @some _ entry hentry =>
      obtain ⟨g, j⟩ := entry
      obtain ⟨hfg, rfl⟩ := hentry
      exact ⟨g, rfl, hfg.sameFace⟩
  missed := by
    intro _ ws ws' hw hmissed
    have hrel := find?_zipIdx_alike h hw 0
    unfold lookupFunction at hmissed ⊢
    rw [hmissed] at hrel
    generalize (gs.zipIdx.find? fun entry => entry.1.accepts ws') = found' at hrel ⊢
    cases hrel
    rfl

theorem signAll_alike {fs gs : List Function} (h : FunctionsAlike fs gs) (n : Nat) :
    (signAll n fs).Alike True FunctionsAlike (signAll n gs) := by
  intro _
  induction h generalizing n with
  | nil => exact ⟨.nil, .nil⟩
  | @cons f g fs gs hfg hrest ih =>
    have hsign : (f.sign n).Alike True (Function.Alike id) (g.sign n) := Function.sign_alike hfg n n
    obtain ⟨hvalue, hreports⟩ := hsign (.inl trivial)
    rw [signAll, signAll, hfg.isUser_eq, isEmpty_alike hreports]
    dsimp only
    split_ifs
    · obtain ⟨hmore, hmoreReports⟩ := ih (n + 1) (.inl trivial)
      exact ⟨.cons hvalue hmore, hmoreReports⟩
    · obtain ⟨hmore, hmoreReports⟩ := ih n (.inl trivial)
      exact ⟨.cons hvalue hmore, hmoreReports⟩
    · exact ⟨.cons hvalue hrest, hreports⟩

theorem fillAll_alike {fs gs : List Function} (h : FunctionsAlike fs gs)
    {own own' : List (Function × List Sentence)}
    (ho : List.Forall₂ (fun o o' => o.1.Alike id o'.1 ∧ SentencesAlike o.2 o'.2) own own') :
    (fillAll fs own).Alike True FunctionsAlike (fillAll gs own') := by
  intro _
  induction ho with
  | nil => exact ⟨.nil, .nil⟩
  | @cons o o' own own' hoo hrest ih =>
    obtain ⟨f, body⟩ := o
    obtain ⟨g, body'⟩ := o'
    obtain ⟨hvalue, hreports⟩ := Function.fill_alike (h.resolves True) hoo.1 hoo.2 (.inl trivial)
    rw [fillAll, fillAll, isEmpty_alike hreports]
    dsimp only
    split_ifs
    · obtain ⟨hmore, hmoreReports⟩ := ih (.inl trivial)
      exact ⟨.cons hvalue hmore, hmoreReports⟩
    · refine ⟨.cons hvalue ?_, hreports⟩
      exact List.forall₂_map_left_iff.2 (List.forall₂_map_right_iff.2 (hrest.imp fun _ _ h => h.1))

theorem forall₂_zip_zip {α β γ δ : Type} {R : α → β → Prop} {S : γ → δ → Prop} {as : List α} {bs : List β}
    {cs : List γ} {ds : List δ} (h : List.Forall₂ R as bs) (h' : List.Forall₂ S cs ds) :
    List.Forall₂ (fun x y => R x.1 y.1 ∧ S x.2 y.2) (as.zip cs) (bs.zip ds) := by
  induction h generalizing cs ds with
  | nil => exact .nil
  | cons hab _ ih =>
    cases h' with
    | nil => exact .nil
    | cons hcd h' => exact .cons ⟨hab, hcd⟩ (ih h')

/-! ## Trees -/

/-- Trees whose functions correspond one by one. -/
def Tree.Alike (t u : Tree) : Prop :=
  FunctionsAlike t.functions u.functions

theorem Document.Alike.declared {d e : Document} (h : d.Alike e) : FunctionsAlike d.declared e.declared := by
  refine List.rel_append (FunctionsAlike.refl builtins) ?_
  refine List.forall₂_map_left_iff.2 (List.forall₂_map_right_iff.2 (h.imp fun f g hfg => ?_))
  exact ⟨hfg.pattern, hfg.returnName, rfl, rfl, .user 0 0 [] .nil⟩

theorem Tree.ofSigned_alike (n : Nat) {signed signed' : Checked (List Function)}
    (h : signed.Alike True FunctionsAlike signed') {bodies bodies' : List (List Sentence)}
    (hbodies : List.Forall₂ SentencesAlike bodies bodies') :
    (Tree.ofSigned n signed bodies).Alike True Tree.Alike (Tree.ofSigned n signed' bodies') := by
  intro _
  obtain ⟨hvalue, hreports⟩ := h (.inl trivial)
  have hown := forall₂_zip_zip (List.forall₂_drop n hvalue) hbodies
  obtain ⟨hfilled, hfilledReports⟩ := fillAll_alike hvalue hown (.inl trivial)
  rw [Tree.ofSigned, Tree.ofSigned, isEmpty_alike hreports]
  split_ifs
  · exact ⟨List.rel_append (List.forall₂_take n hvalue) hfilled, hfilledReports⟩
  · exact ⟨hvalue, hreports⟩

/-- **Like documents are checked alike.** -/
theorem Tree.ofDocument_alike (clean : Bool) {d e : Document} (h : d.Alike e) :
    (Tree.ofDocument clean d).Alike True Tree.Alike (Tree.ofDocument clean e) := by
  cases clean with
  | false => exact fun _ => ⟨h.declared, .nil⟩
  | true =>
    rw [Tree.ofDocument_eq_ofSigned, Tree.ofDocument_eq_ofSigned]
    refine Tree.ofSigned_alike builtins.length (signAll_alike h.declared 1) ?_
    exact List.forall₂_map_left_iff.2 (List.forall₂_map_right_iff.2 (h.imp fun _ _ hfg => hfg.body))

/-! ## Programs -/

section
variable {f g : Function}

theorem Function.Alike.invocation_eq (h : f.Alike id g) (hs : g.symbol? = f.symbol?) :
    g.role.invocation = f.role.invocation := by
  have hrole := h.role
  unfold Function.symbol? at hs
  generalize f.role = r, g.role = s at hrole hs ⊢
  cases hrole with
  | user symbol symbol' body hlocals =>
    cases hs
    rfl
  | _ => rfl

theorem Function.Alike.symbolAt_eq (h : f.Alike id g) (hs : g.symbol? = f.symbol?) (start : Nat) :
    g.symbolAt start = f.symbolAt start := by
  have hrole := h.role
  unfold Function.symbol? at hs
  unfold Function.symbolAt
  generalize f.role = r, g.role = s at hrole hs ⊢
  cases hrole with
  | user symbol symbol' body hlocals =>
    cases hs
    dsimp only
    rw [hlocals.length_eq]
  | _ => rfl

theorem Function.Alike.code_eq (h : f.Alike id g) (fs : List Function) (start : Nat) :
    g.code fs start = f.code fs start := by
  have hrole := h.role
  unfold Function.code
  rw [h.returnType]
  generalize f.role = r, g.role = s at hrole ⊢
  cases hrole with
  | user symbol symbol' body hlocals => simp only [prologue_alike hlocals, actionsRenamed_id]
  | _ => rfl

end

section
variable {t u : Tree}

theorem Tree.WellTyped.function_wellTyped (ht : t.WellTyped) {f : Function} (hf : f ∈ t.functions) :
    f.WellTyped t.functions := by
  by_cases huser : f.isUser = true
  · exact ht.bodies f (List.mem_filter.2 ⟨hf, huser⟩)
  · unfold Function.isUser at huser
    unfold Function.WellTyped
    split
    · next hrole => simp [hrole] at huser
    · trivial

/-- The number of a function with a body tells its place among all functions. -/
theorem Tree.WellTyped.symbol?_of_getElem? (ht : t.WellTyped) {k : Nat} {f : Function}
    (hf : t.functions[k]? = some f) :
    some f.symbol? = if k < signedBuiltins.length then signedBuiltins[k]?.map Function.symbol?
      else some (some (k - signedBuiltins.length + 1)) := by
  rw [ht.functions] at hf
  split_ifs with hk
  · rw [List.getElem?_append_left hk] at hf
    rw [hf, Option.map_some]
  · rw [List.getElem?_append_right (Nat.not_lt.1 hk)] at hf
    have hat := congrArg (·[k - signedBuiltins.length]?) ht.symbols
    obtain ⟨hlt, rfl⟩ := List.getElem?_eq_some_iff.1 hf
    simpa [hlt, Nat.add_comm] using hat

/-- **Functions of well-typed trees that correspond have the same code**, whatever stands
    behind them. -/
theorem Tree.assemble_eq_of_alike (ht : t.WellTyped) (hu : u.WellTyped) {as bs : List Function}
    (hfs : u.functions = as ++ bs) (h : FunctionsAlike t.functions as) :
    assemble u.functions 0 as = assemble t.functions 0 t.functions := by
  have hboth : List.Forall₂ (fun f g => f ∈ t.functions ∧ f.Alike id g ∧ g.symbol? = f.symbol?)
      t.functions as := by
    refine List.forall₂_iff_get.2 ⟨h.length_eq, fun i hi hi' => ?_⟩
    refine ⟨List.get_mem _ _, h.get hi hi', ?_⟩
    have hg : u.functions[i]? = some (as.get ⟨i, hi'⟩) := by
      rw [hfs, List.getElem?_append_left hi', List.getElem?_eq_getElem hi', List.get_eq_getElem]
    have hsymbol := hu.symbol?_of_getElem? hg
    rw [← ht.symbol?_of_getElem? (List.getElem?_eq_getElem hi)] at hsymbol
    exact Option.some.inj hsymbol
  have hcalls : SameCalls t.functions u.functions := by
    refine ⟨fun _ _ _ => rfl, fun k f hf => ?_⟩
    obtain ⟨hk, rfl⟩ := List.getElem?_eq_some_iff.1 hf
    have hk' : k < as.length := h.length_eq ▸ hk
    obtain ⟨-, halike, hsymbol⟩ := hboth.get hk hk'
    refine ⟨as[k], ?_, ?_⟩
    · rw [hfs, id, List.getElem?_append_left hk', List.getElem?_eq_getElem hk']
    · rw [List.forall₂_eq_eq_eq]
      exact (halike.invocation_eq hsymbol).symm
  refine assemble_congr (hboth.imp fun f g hfg start => ?_) 0
  obtain ⟨hf, halike, hsymbol⟩ := hfg
  refine ⟨halike.symbolAt_eq hsymbol start, ?_⟩
  rw [halike.code_eq]
  exact Function.code_congr hcalls (ht.function_wellTyped hf) start

/-- **Well-typed trees that correspond have one program.** -/
theorem Tree.program_eq_of_alike (h : t.Alike u) (ht : t.WellTyped) (hu : u.WellTyped) :
    u.program = t.program := by
  rw [Tree.program, Tree.program, Tree.assemble_eq_of_alike ht hu (List.append_nil _).symm h]

end

/-! ## Texts -/

section
variable {source source' : String} (hclean : (Token.ofSource source).reports = [])
  (hclean' : (Token.ofSource source').reports = [])
  (h : TokensAlike (Token.ofSource source).tokens (Token.ofSource source').tokens)
include hclean hclean' h

theorem analysis_alike :
    (Analysis.ofSource source).tree.Alike (Analysis.ofSource source').tree ∧
      List.Forall₂ Report.Alike (Analysis.ofSource source).reports (Analysis.ofSource source').reports := by
  obtain ⟨hdocument, hfound⟩ := ofTokens_alike true h
  simp only [Analysis.ofSource, hclean, hclean', List.isEmpty_nil, List.nil_append, isEmpty_alike hfound]
  obtain ⟨htree, hreports⟩ := Tree.ofDocument_alike
    (Document.ofTokens true (Token.ofSource source').tokens).2.isEmpty hdocument (.inl trivial)
  exact ⟨htree, reports_append hfound hreports⟩

/-- **Texts with like tokens have the same program, or like reports.** -/
theorem compile_alike :
    (∃ p, compile source = .ok p ∧ compile source' = .ok p) ∨
      ∃ rs ss, compile source = .error rs ∧ compile source' = .error ss ∧
        List.Forall₂ Report.Alike rs ss := by
  obtain ⟨htree, hreports⟩ := analysis_alike hclean hclean' h
  by_cases hok : (Analysis.ofSource source).reports.isEmpty = true
  · have hok' : (Analysis.ofSource source').reports.isEmpty = true := isEmpty_alike hreports ▸ hok
    have hp : compile source = .ok (Analysis.ofSource source).tree.program := if_pos hok
    have hp' : compile source' = .ok (Analysis.ofSource source').tree.program := if_pos hok'
    obtain ⟨ht, -⟩ := wellTyped_of_compile hp
    obtain ⟨hu, -⟩ := wellTyped_of_compile hp'
    rw [Tree.program_eq_of_alike htree ht hu] at hp'
    exact .inl ⟨_, hp, hp'⟩
  · have hok' : ¬ (Analysis.ofSource source').reports.isEmpty = true := isEmpty_alike hreports ▸ hok
    exact .inr ⟨_, _, if_neg hok, if_neg hok', hreports⟩

end

section Sample

instance (t u : Token) : Decidable (t.Alike u) :=
  decidable_of_iff (t.kind = u.kind ∧ Text.sameWord t.text u.text = true)
    ⟨fun h => ⟨h.1, h.2⟩, fun h => ⟨h.kind, h.text⟩⟩

/-- The sample in other letters, on several lines and with a comment. -/
def respelledSource : String :=
  "offentlig FUNKTION F tilbagegiver heltal.\nGODDAG.\n  print (G 2). Bemærk: (g 3) går også.\nfarvel.\n" ++
  "\noffentlig funktion G (x SOM Heltal)\n  tilbagegiver HELTAL.\ngoddag.\n  tilbagegiv x.\nfarvel.\n"

theorem compile_respelled : (Token.ofSource sampleSource).reports = [] ∧
    (Token.ofSource respelledSource).reports = [] ∧
      TokensAlike (Token.ofSource sampleSource).tokens (Token.ofSource respelledSource).tokens ∧
        compile respelledSource = .ok sampleProgram := by
  have htokens : (Token.ofSource sampleSource).reports = [] ∧ (Token.ofSource respelledSource).reports = [] ∧
      TokensAlike (Token.ofSource sampleSource).tokens (Token.ofSource respelledSource).tokens := by
    decide +kernel
  obtain ⟨hclean, hclean', halike⟩ := htokens
  refine ⟨hclean, hclean', halike, ?_⟩
  rcases compile_alike hclean hclean' halike with ⟨p, hp, hp'⟩ | ⟨rs, ss, hrs, -⟩
  · rw [compile_sample] at hp
    cases hp
    exact hp'
  · rw [compile_sample] at hrs
    cases hrs

end Sample

end DanishProse

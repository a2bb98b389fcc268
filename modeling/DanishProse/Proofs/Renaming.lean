/-
  Parameters under other names.

  * A `Renaming` puts one name in place of another, in whatever letters that is
    written; `Definition.renamed` does so in the parameters, the declarations and the
    clauses of a definition, but not in the words of its pattern;
  * `Renaming.Keeps`: some locals have the old name among theirs, and not the new one.
    Then clauses and sentences come to the same under the new name
    (`lookupClauses_renamed`, `checkSentences_renamed`);
  * `Function.RunsAs`: functions with the same symbols and the same code.  Names do not
    show in code, so `program_renamed`: the program stays the same.
-/
import DanishProse.Proofs.Placement

namespace DanishProse

/-! ## Other names -/

/-- A name, and another one in its place. -/
structure Renaming where
  old : String
  new : String

/-- A word, or the new name if the word is the old one. -/
def Renaming.word (σ : Renaming) (w : String) : String :=
  if Text.sameWord w σ.old then σ.new else w

section
variable (σ : Renaming)

mutual

/-- A part with the new name for the old one. -/
def Part.renamed : Part → Part
  | .word w => .word (σ.word w)
  | .literal v => .literal v
  | .list cs => .list (clausesRenamed cs)
termination_by structural p => p

/-- A clause with the new name for the old one. -/
def Clause.renamed : Clause → Clause
  | .mk l ps => .mk l (partsRenamed ps)
termination_by structural c => c

/-- Parts with the new name for the old one. -/
def partsRenamed : List Part → List Part
  | [] => []
  | p :: ps => p.renamed :: partsRenamed ps
termination_by structural ps => ps

/-- Clauses with the new name for the old one. -/
def clausesRenamed : List Clause → List Clause
  | [] => []
  | c :: cs => c.renamed :: clausesRenamed cs
termination_by structural cs => cs

end

mutual

/-- A sentence with the new name for the old one; names of types stay. -/
def Sentence.renamed : Sentence → Sentence
  | .declare name typeName l => .declare (σ.word name) typeName l
  | .express cs => .express (clausesRenamed σ cs)
  | .giveBack cs => .giveBack (clausesRenamed σ cs)
  | .when cs body => .when (clausesRenamed σ cs) (sentencesRenamed body)
  | .whenElse cs body otherwise =>
    .whenElse (clausesRenamed σ cs) (sentencesRenamed body) (sentencesRenamed otherwise)
  | .loop cs body => .loop (clausesRenamed σ cs) (sentencesRenamed body)
termination_by structural s => s

/-- Sentences with the new name for the old one. -/
def sentencesRenamed : List Sentence → List Sentence
  | [] => []
  | s :: ss => s.renamed :: sentencesRenamed ss
termination_by structural ss => ss

end

/-- A position of a pattern; only a parameter may get the new name. -/
def PatternPart.renamed : PatternPart → PatternPart
  | .word name => .word name
  | .parameter name typeName => .parameter (σ.word name) typeName

/-- A pattern with the new name for the old one among its parameters. -/
def Pattern.renamed (p : Pattern) : Pattern :=
  ⟨p.parts.map (PatternPart.renamed σ)⟩

/-- A definition with the new name for the old one in it. -/
def Definition.renamed (d : Definition) : Definition :=
  { d with pattern := d.pattern.renamed σ, body := sentencesRenamed σ d.body }

end

/-! ## The words of a definition -/

/-- The word that a part is. -/
def Part.word? : Part → Option String
  | .word w => some w
  | _ => none

/-- The words of a clause list, at any depth. -/
def clausesWords (cs : List Clause) : List String :=
  (clausesLeaves cs).filterMap Part.word?

mutual

/-- The names that a sentence declares, and the words of its clauses. -/
def Sentence.words : Sentence → List String
  | .declare name _ _ => [name]
  | .express cs => clausesWords cs
  | .giveBack cs => clausesWords cs
  | .when cs body => clausesWords cs ++ sentencesWords body
  | .whenElse cs body otherwise => clausesWords cs ++ sentencesWords body ++ sentencesWords otherwise
  | .loop cs body => clausesWords cs ++ sentencesWords body
termination_by structural s => s

/-- The names that sentences declare, and the words of their clauses. -/
def sentencesWords : List Sentence → List String
  | [] => []
  | s :: ss => s.words ++ sentencesWords ss
termination_by structural ss => ss

end

/-- The names of the parameters of a definition, and the words and names in its body. -/
def Definition.words (d : Definition) : List String :=
  d.pattern.parameters.map PatternPart.name ++ sentencesWords d.body

theorem mem_clausesWords {cs : List Clause} {w : String} :
    w ∈ clausesWords cs ↔ .word w ∈ clausesLeaves cs := by
  rw [clausesWords, List.mem_filterMap]
  constructor
  · rintro ⟨q, hq, hw⟩
    cases q <;> cases hw
    exact hq
  · exact fun h => ⟨_, h, rfl⟩

/-! ## Locals -/

/-- A word that is not the new name. -/
def Renaming.Spares (σ : Renaming) (w : String) : Prop :=
  Text.sameWord w σ.new = false

/-- A local with the new name for the old one. -/
def Local.renamed (σ : Renaming) (l : Local) : Local :=
  { l with name := σ.word l.name }

/-- There is a local of the old name, and none of the new one. -/
structure Renaming.Keeps (σ : Renaming) (locals : List Local) : Prop where
  spared : ∀ l ∈ locals, σ.Spares l.name
  named : ∃ l ∈ locals, Text.sameWord l.name σ.old = true

section
variable {σ : Renaming}

/-- Words that are not the new name are the same word after the renaming if they were before. -/
theorem Renaming.sameWord_word {v w : String} (hv : σ.Spares v) (hw : σ.Spares w) :
    Text.sameWord (σ.word v) (σ.word w) = Text.sameWord v w := by
  unfold Spares at hv hw
  unfold word
  split_ifs with hvold hwold hwold
  · rw [Text.sameWord_refl, Text.sameWord_trans hvold ((Text.sameWord_comm _ _).trans hwold)]
  · rw [Text.sameWord_comm, hw, eq_comm, Bool.eq_false_iff]
    exact fun hsame => hwold (Text.sameWord_trans ((Text.sameWord_comm _ _).trans hsame) hvold)
  · rw [hv, eq_comm, Bool.eq_false_iff]
    exact fun hsame => hvold (Text.sameWord_trans hsame hwold)
  · rfl

/-- **A renamed word names the renamed local.** -/
theorem lookupLocal_renamed {locals : List Local} (hl : ∀ l ∈ locals, σ.Spares l.name) {w : String}
    (hw : σ.Spares w) :
    lookupLocal (locals.map (Local.renamed σ)) (σ.word w) = (lookupLocal locals w).map (Local.renamed σ) := by
  unfold lookupLocal
  induction locals with
  | nil => rfl
  | cons l locals ih =>
    obtain ⟨hname, hl⟩ := List.forall_mem_cons.1 hl
    rw [List.map_cons, List.find?_cons, List.find?_cons, ih hl]
    simp only [Local.renamed, Renaming.sameWord_word hname hw]
    split <;> rfl

/-- A word that names no local is not the old name. -/
theorem Renaming.Keeps.word_eq {locals : List Local} (hl : σ.Keeps locals) {w : String}
    (hw : lookupLocal locals w = none) : σ.word w = w := by
  obtain ⟨l, hmem, hold⟩ := hl.named
  rw [word, if_neg]
  intro hsame
  refine List.find?_eq_none.1 hw l hmem ?_
  exact Text.sameWord_trans hold ((Text.sameWord_comm _ _).trans hsame)

theorem Renaming.Keeps.addLocal {locals : List Local} (hl : σ.Keeps locals) {name : String}
    (hname : σ.Spares name) (type : Ty) (isParameter : Bool) :
    σ.Keeps (addLocal locals name type isParameter) := by
  obtain ⟨l, hmem, hold⟩ := hl.named
  refine ⟨List.forall_mem_append.2 ⟨hl.spared, List.forall_mem_singleton.2 hname⟩, l, ?_, hold⟩
  exact List.mem_append_left _ hmem

theorem addLocal_renamed (σ : Renaming) (locals : List Local) (name : String) (type : Ty)
    (isParameter : Bool) :
    addLocal (locals.map (Local.renamed σ)) (σ.word name) type isParameter =
      (addLocal locals name type isParameter).map (Local.renamed σ) := by
  rw [addLocal, addLocal, List.map_append, List.length_map]
  rfl

/-! ## Clauses -/

section
variable {fs : List Function} {locals : List Local}

mutual

theorem Part.lookup_renamed (hl : σ.Keeps locals) : ∀ {p : Part}, (∀ w, .word w ∈ p.leaves → σ.Spares w) →
    (p.renamed σ).lookup fs (locals.map (Local.renamed σ)) = p.lookup fs locals
  | .word w, hp => by
    rw [Part.renamed, Part.lookup, Part.lookup,
      lookupLocal_renamed hl.spared (hp w (List.mem_singleton.2 rfl))]
    cases hfound : lookupLocal locals w with
    | some l => rfl
    | none => rw [hl.word_eq hfound, Option.map_none]
  | .literal _, _ => rfl
  | .list cs, hp => by rw [Part.renamed, Part.lookup, Part.lookup, lookupEach_renamed hl hp]

theorem lookupParts_renamed (hl : σ.Keeps locals) : ∀ {ps : List Part},
    (∀ w, .word w ∈ partsLeaves ps → σ.Spares w) →
      lookupParts fs (locals.map (Local.renamed σ)) (partsRenamed σ ps) = lookupParts fs locals ps
  | [], _ => rfl
  | p :: ps, hps => by
    have hfirst := Part.lookup_renamed hl fun w hw => hps w (List.mem_append_left _ hw)
    have hrest := lookupParts_renamed hl fun w hw => hps w (List.mem_append_right _ hw)
    rw [partsRenamed, lookupParts, lookupParts, hfirst, hrest]

theorem Clause.lookup_renamed (hl : σ.Keeps locals) : ∀ {c : Clause}, (∀ w, .word w ∈ c.leaves → σ.Spares w) →
    (c.renamed σ).lookup fs (locals.map (Local.renamed σ)) = c.lookup fs locals
  | .mk l ps, hc => by rw [Clause.renamed, Clause.lookup, Clause.lookup, lookupParts_renamed hl hc]

theorem lookupEach_renamed (hl : σ.Keeps locals) : ∀ {cs : List Clause},
    (∀ w, .word w ∈ clausesLeaves cs → σ.Spares w) →
      lookupEach fs (locals.map (Local.renamed σ)) (clausesRenamed σ cs) = lookupEach fs locals cs
  | [], _ => rfl
  | c :: cs, hcs => by
    have hfirst := Clause.lookup_renamed hl fun w hw => hcs w (List.mem_append_left _ hw)
    have hrest := lookupEach_renamed hl fun w hw => hcs w (List.mem_append_right _ hw)
    rw [clausesRenamed, lookupEach, lookupEach, hfirst, hrest]

end

/-- **A clause list has the same value under the new name**, with the same reports. -/
theorem lookupClauses_renamed (hl : σ.Keeps locals) {cs : List Clause}
    (hcs : ∀ w ∈ clausesWords cs, σ.Spares w) :
    lookupClauses fs (locals.map (Local.renamed σ)) (clausesRenamed σ cs) = lookupClauses fs locals cs := by
  rw [lookupClauses, lookupClauses,
    lookupEach_renamed hl fun w hw => hcs w (mem_clausesWords.2 hw)]

end

/-! ## Bodies -/

/-- The second check comes to the first one, with its locals renamed. -/
structure Checked.RenamedBody (σ : Renaming) (c d : Checked Body) : Prop where
  actions : d.value.actions = c.value.actions
  locals : d.value.locals = c.value.locals.map (Local.renamed σ)
  reports : d.reports = c.reports
  keeps : σ.Keeps c.value.locals

section
variable {fs : List Function}

mutual

theorem Sentence.check_renamed : ∀ {s : Sentence} {locals : List Local}, σ.Keeps locals →
    (∀ w ∈ s.words, σ.Spares w) →
      (s.check fs locals).RenamedBody σ ((s.renamed σ).check fs (locals.map (Local.renamed σ)))
  | .declare name typeName l, locals, hl, hs =>
    ⟨rfl, addLocal_renamed σ locals name _ false, rfl, hl.addLocal (hs name (List.mem_singleton.2 rfl)) _ _⟩
  | .express cs, locals, hl, hs => by
    rw [Sentence.renamed, Sentence.check, Sentence.check, lookupClauses_renamed hl hs]
    exact ⟨rfl, rfl, rfl, hl⟩
  | .giveBack cs, locals, hl, hs => by
    rw [Sentence.renamed, Sentence.check, Sentence.check, lookupClauses_renamed hl hs]
    exact ⟨rfl, rfl, rfl, hl⟩
  | .when cs body, locals, hl, hs => by
    obtain ⟨hcs, hbody⟩ := List.forall_mem_append.1 hs
    have hinner := checkSentences_renamed hl hbody
    rw [Sentence.renamed, Sentence.check, Sentence.check, lookupClauses_renamed hl hcs]
    refine ⟨?_, hinner.locals, ?_, hinner.keeps⟩
    · simp only [Checked.value_bind, Checked.value_pure, hinner.actions]
    · simp only [Checked.reports_bind, hinner.reports, Checked.reports_pure]
  | .whenElse cs body otherwise, locals, hl, hs => by
    obtain ⟨hs, hotherwise⟩ := List.forall_mem_append.1 hs
    obtain ⟨hcs, hbody⟩ := List.forall_mem_append.1 hs
    have hinner := checkSentences_renamed hl hbody
    have hother := checkSentences_renamed hinner.keeps hotherwise
    rw [← hinner.locals] at hother
    rw [Sentence.renamed, Sentence.check, Sentence.check, lookupClauses_renamed hl hcs]
    refine ⟨?_, hother.locals, ?_, hother.keeps⟩
    · simp only [Checked.value_bind, Checked.value_pure, hinner.actions, hother.actions]
    · simp only [Checked.reports_bind, hinner.reports, hother.reports, Checked.reports_pure]
  | .loop cs body, locals, hl, hs => by
    obtain ⟨hcs, hbody⟩ := List.forall_mem_append.1 hs
    have hinner := checkSentences_renamed hl hbody
    rw [Sentence.renamed, Sentence.check, Sentence.check, lookupClauses_renamed hl hcs]
    refine ⟨?_, hinner.locals, ?_, hinner.keeps⟩
    · simp only [Checked.value_bind, Checked.value_pure, hinner.actions]
    · simp only [Checked.reports_bind, hinner.reports, Checked.reports_pure]

/-- **A body comes to the same actions under the new name**, with the same reports. -/
theorem checkSentences_renamed : ∀ {ss : List Sentence} {locals : List Local}, σ.Keeps locals →
    (∀ w ∈ sentencesWords ss, σ.Spares w) →
      (checkSentences fs locals ss).RenamedBody σ
        (checkSentences fs (locals.map (Local.renamed σ)) (sentencesRenamed σ ss))
  | [], _, hl, _ => ⟨rfl, rfl, rfl, hl⟩
  | s :: ss, locals, hl, hss => by
    obtain ⟨hs, hss⟩ := List.forall_mem_append.1 hss
    have hfirst := Sentence.check_renamed hl hs
    have hmore := checkSentences_renamed hfirst.keeps hss
    rw [← hfirst.locals] at hmore
    rw [sentencesRenamed, checkSentences, checkSentences]
    refine ⟨?_, hmore.locals, ?_, hmore.keeps⟩
    · simp only [Checked.value_bind, Checked.value_pure, hfirst.actions, hmore.actions]
    · simp only [Checked.reports_bind, hfirst.reports, hmore.reports, Checked.reports_pure]

end

end

/-! ## Functions -/

/-- A function with the new name for the old one among its parameters and locals. -/
def Function.renamed (σ : Renaming) (f : Function) : Function :=
  { f with
    pattern := f.pattern.renamed σ
    role := match f.role with
      | .user symbol locals body => .user symbol (locals.map (Local.renamed σ)) body
      | role => role }

/-- Functions with the same symbols and the same code. -/
structure Function.RunsAs (f g : Function) : Prop where
  invocation : g.role.invocation = f.role.invocation
  symbolAt : ∀ start, g.symbolAt start = f.symbolAt start
  code : ∀ fs start, g.code fs start = f.code fs start

theorem Function.RunsAs.refl (f : Function) : f.RunsAs f :=
  ⟨rfl, fun _ => rfl, fun _ _ => rfl⟩

theorem Function.RunsAs.trans {f g h : Function} (hfg : f.RunsAs g) (hgh : g.RunsAs h) : f.RunsAs h where
  invocation := hgh.invocation.trans hfg.invocation
  symbolAt start := (hgh.symbolAt start).trans (hfg.symbolAt start)
  code fs start := (hgh.code fs start).trans (hfg.code fs start)

theorem Function.Alike.runsAs {f g : Function} (h : f.Alike id g) (hs : g.symbol? = f.symbol?) : f.RunsAs g :=
  ⟨h.invocation_eq hs, h.symbolAt_eq hs, h.code_eq⟩

theorem prologue_renamed (σ : Renaming) (locals : List Local) :
    prologue (locals.map (Local.renamed σ)) = prologue locals := by
  rw [prologue, prologue, List.filter_map, ← List.map_reverse, List.map_map]
  rfl

/-- **Names do not show in code.** -/
theorem Function.runsAs_renamed (σ : Renaming) (f : Function) : f.RunsAs (f.renamed σ) := by
  unfold renamed
  refine ⟨?_, fun start => ?_, fun fs start => ?_⟩
  · cases f.role <;> rfl
  · unfold symbolAt
    cases f.role with
    | user symbol locals body => simp only [List.length_map]
    | _ => rfl
  · unfold code
    cases f.role with
    | user symbol locals body => simp only [prologue_renamed]
    | _ => rfl

/-- **Well-typed functions with the same symbols and the same code make the same program.** -/
theorem Tree.program_eq_of_runsAs {t u : Tree} (ht : t.WellTyped)
    (h : List.Forall₂ Function.RunsAs t.functions u.functions) : u.program = t.program := by
  have hcalls : SameCalls t.functions u.functions := by
    refine ⟨fun _ _ _ => rfl, fun k f hf => ?_⟩
    obtain ⟨hk, rfl⟩ := List.getElem?_eq_some_iff.1 hf
    have hk' : k < u.functions.length := h.length_eq ▸ hk
    refine ⟨u.functions[k], List.getElem?_eq_getElem hk', ?_⟩
    rw [List.forall₂_eq_eq_eq]
    exact (h.get hk hk').invocation.symm
  have hboth : List.Forall₂ (fun f g => f ∈ t.functions ∧ f.RunsAs g) t.functions u.functions :=
    List.forall₂_iff_get.2 ⟨h.length_eq, fun k hk hk' => ⟨List.get_mem _ _, h.get hk hk'⟩⟩
  have hassembly : assemble u.functions 0 u.functions = assemble t.functions 0 t.functions := by
    refine assemble_congr (hboth.imp fun f g hfg start => ?_) 0
    obtain ⟨hf, hruns⟩ := hfg
    refine ⟨hruns.symbolAt start, ?_⟩
    rw [hruns.code]
    exact Function.code_congr hcalls (ht.function_wellTyped hf) start
  rw [Tree.program, Tree.program, hassembly]

/-! ## Definitions -/

section
variable {σ : Renaming}

theorem PatternPart.typeName?_renamed (p : PatternPart) : (p.renamed σ).typeName? = p.typeName? := by
  cases p <;> rfl

theorem Pattern.parameters_renamed (p : Pattern) :
    (p.renamed σ).parameters = p.parameters.map (PatternPart.renamed σ) := by
  rw [parameters, parameters, renamed, List.filter_map]
  simp only [Function.comp_def, PatternPart.typeName?_renamed]

/-- What a clause wants of a pattern does not depend on the names of parameters. -/
theorem fitAll_renamed (ps : List PatternPart) (ws : List Wanted) :
    fitAll (ps.map (PatternPart.renamed σ)) ws = fitAll ps ws := by
  induction ps generalizing ws with
  | nil => rfl
  | cons p ps ih =>
    have hfits : ∀ w : Wanted, (p.renamed σ).fits w = p.fits w := by
      intro w
      cases p <;> cases w <;> rfl
    cases ws with
    | nil => rfl
    | cons w ws => rw [List.map_cons, fitAll, fitAll, hfits, ih]

/-- What a clause wants of a pattern does not depend on the names of parameters. -/
theorem Function.accepts_renamed (f : Function) (ws : List Wanted) : (f.renamed σ).accepts ws = f.accepts ws :=
  fitAll_renamed f.pattern.parts ws

theorem Function.sameFace_renamed (f : Function) : f.SameFace (f.renamed σ) := by
  refine ⟨?_, rfl, rfl⟩
  unfold Function.isAssignment Function.renamed
  cases f.role <;> rfl

theorem Function.sign_renamed (f : Function) (n : Nat) :
    (f.renamed σ).sign n = ⟨(f.sign n).value.renamed σ, (f.sign n).reports⟩ := by
  have hnames : (f.pattern.renamed σ).parameters.filterMap PatternPart.typeName? =
      f.pattern.parameters.filterMap PatternPart.typeName? := by
    rw [Pattern.parameters_renamed, List.filterMap_map]
    simp only [Function.comp_def, PatternPart.typeName?_renamed]
  unfold Function.sign Function.renamed
  dsimp only
  rw [hnames]
  cases f.role <;> rfl

/-- A position that takes a value has its name renamed. -/
theorem Pattern.name_renamed {p : Pattern} {part : PatternPart} (h : part ∈ p.parameters) :
    (part.renamed σ).name = σ.word part.name := by
  cases part with
  | word name => simp [parameters, PatternPart.typeName?] at h
  | parameter name typeName => rfl

theorem Function.parameterLocals_renamed (f : Function) :
    (f.renamed σ).parameterLocals = f.parameterLocals.map (Local.renamed σ) := by
  have hgo : ∀ (own : List (PatternPart × Ty)) (ls : List Local),
      (∀ entry ∈ own, (entry.1.renamed σ).name = σ.word entry.1.name) →
        (own.map (Prod.map (PatternPart.renamed σ) id)).foldl
            (fun ls entry => addLocal ls entry.1.name entry.2 true) (ls.map (Local.renamed σ)) =
          (own.foldl (fun ls entry => addLocal ls entry.1.name entry.2 true) ls).map (Local.renamed σ) := by
    intro own ls hown
    induction own generalizing ls with
    | nil => rfl
    | cons entry own ih =>
      obtain ⟨hname, hown⟩ := List.forall_mem_cons.1 hown
      rw [List.map_cons, List.foldl_cons, List.foldl_cons, ← ih _ hown, ← addLocal_renamed, ← hname]
      rfl
  unfold Function.parameterLocals Function.renamed
  dsimp only
  rw [Pattern.parameters_renamed, List.zip_map_left]
  exact hgo _ [] fun entry hentry => Pattern.name_renamed (List.of_mem_zip hentry).1

/-- **A function is filled alike under the new name.** -/
theorem Function.fill_renamed {fs : List Function} {f : Function} {body : List Sentence}
    (hl : σ.Keeps f.parameterLocals) (hbody : ∀ w ∈ sentencesWords body, σ.Spares w) :
    (f.renamed σ).fill fs (sentencesRenamed σ body) =
      ⟨(f.fill fs body).value.renamed σ, (f.fill fs body).reports⟩ := by
  have hchecked : (checkSentences fs f.parameterLocals body).RenamedBody σ
      (checkSentences fs (f.parameterLocals.map (Local.renamed σ)) (sentencesRenamed σ body)) :=
    checkSentences_renamed hl hbody
  rw [← Function.parameterLocals_renamed] at hchecked
  generalize hc : checkSentences fs f.parameterLocals body = c at hchecked
  generalize hd : checkSentences fs (f.renamed σ).parameterLocals (sentencesRenamed σ body) = d at hchecked
  obtain ⟨hactions, hlocals, hreports, -⟩ := hchecked
  rw [fill, fill, hc, hd]
  obtain ⟨pattern, returnName, returnType, parameterTypes, role, location⟩ := f
  refine congrArg₂ Checked.mk ?_ ?_
  · simp only [Checked.value_bind, hactions, hlocals]
    cases role <;> rfl
  · simp only [Checked.reports_bind, hreports]
    cases role <;> rfl

end

/-- The locals that a signed function starts with are named as its parameters are. -/
theorem Function.names_parameterLocals {f : Function} (h : f.Signed) :
    f.parameterLocals.map Local.name = f.pattern.parameters.map PatternPart.name := by
  have hgo : ∀ (own : List (PatternPart × Ty)) (ls : List Local),
      (own.foldl (fun ls entry => addLocal ls entry.1.name entry.2 true) ls).map Local.name =
        ls.map Local.name ++ own.map fun entry => entry.1.name := by
    intro own ls
    induction own generalizing ls with
    | nil => simp
    | cons entry own ih => rw [List.foldl_cons, ih]; simp [addLocal]
  have hfst : (f.pattern.parameters.zip f.parameterTypes).map Prod.fst = f.pattern.parameters :=
    List.map_fst_zip (Nat.le_of_eq h.length_eq.symm)
  rw [← congrArg (List.map PatternPart.name) hfst, List.map_map]
  exact hgo _ []

theorem Definition.declared_renamed (x : Definition) : (x.renamed σ).declared = x.declared.renamed σ := rfl

/-- A definition has the same types under the new name, and the same reports on them. -/
theorem Definition.sign_renamed (x : Definition) (n : Nat) :
    (x.renamed σ).signed n = (x.signed n).renamed σ ∧
      ((x.renamed σ).declared.sign n).reports = (x.declared.sign n).reports := by
  rw [signed, declared_renamed, Function.sign_renamed]
  exact ⟨rfl, rfl⟩

/-- A parameter has the old name, and nothing in the definition has the new one. -/
structure Renaming.Suits (σ : Renaming) (x : Definition) : Prop where
  old : ∃ p ∈ x.pattern.parameters, Text.sameWord p.name σ.old = true
  new : ∀ w ∈ x.words, σ.Spares w

/-- **A body is looked up alike under the new name.** -/
theorem Definition.check_renamed {fs : List Function} {x : Definition} (hσ : σ.Suits x)
    (hx : (x.declared.sign 0).reports = []) (n : Nat) :
    (x.renamed σ).check fs n = ⟨(x.check fs n).value.renamed σ, (x.check fs n).reports⟩ := by
  have hnames := Function.names_parameterLocals (Function.sign_signed ((x.declared.reports_sign n 0).trans hx))
  have hpattern : (x.declared.sign n).value.pattern = x.pattern := rfl
  rw [hpattern] at hnames
  have hkeeps : σ.Keeps (x.signed n).parameterLocals := by
    refine ⟨fun l hl => hσ.new _ (List.mem_append_left _ ?_), ?_⟩
    · rw [← hnames]
      exact List.mem_map_of_mem hl
    · obtain ⟨p, hp, hold⟩ := hσ.old
      obtain ⟨l, hl, hname⟩ := List.mem_map.1 (hnames ▸ List.mem_map_of_mem (f := PatternPart.name) hp)
      exact ⟨l, hl, hname ▸ hold⟩
  rw [check, (x.sign_renamed n).1]
  exact Function.fill_renamed hkeeps fun w hw => hσ.new w (List.mem_append_right _ hw)

end

/-! ## Documents -/

/-- Functions that clauses call alike, and that give the same. -/
structure Function.CalledAs (f g : Function) : Prop where
  face : f.SameFace g
  accepts : ∀ ws, g.accepts ws = f.accepts ws

theorem Function.CalledAs.refl (f : Function) : f.CalledAs f :=
  ⟨.refl f, fun _ => rfl⟩

/-- Functions that are called alike are found together. -/
theorem find?_zipIdx_calledAs {fs gs : List Function} (h : List.Forall₂ Function.CalledAs fs gs)
    (ws : List Wanted) (n : Nat) :
    Option.Rel (fun found found' => found.1.SameFace found'.1 ∧ found'.2 = found.2)
      ((fs.zipIdx n).find? fun entry => entry.1.accepts ws)
      ((gs.zipIdx n).find? fun entry => entry.1.accepts ws) := by
  induction h generalizing n with
  | nil => exact .none
  | @cons f g fs gs hfg _ ih =>
    rw [List.zipIdx_cons, List.zipIdx_cons, List.find?_cons, List.find?_cons]
    dsimp only
    rw [hfg.accepts]
    split
    · exact .some ⟨hfg.face, rfl⟩
    · exact ih (n + 1)

theorem resolves_of_calledAs {fs gs : List Function} (h : List.Forall₂ Function.CalledAs fs gs) (always : Prop) :
    Resolves always id fs gs where
  found := by
    intro ws ws' hw f i hfound
    have hrel := find?_zipIdx_calledAs h ws 0
    rw [lookupFunction_alike gs hw]
    unfold lookupFunction at hfound ⊢
    rw [hfound] at hrel
    generalize (gs.zipIdx.find? fun entry => entry.1.accepts ws) = found' at hrel ⊢
    cases hrel with
    | @some _ entry hentry =>
      obtain ⟨g, j⟩ := entry
      obtain ⟨hfg, rfl⟩ := hentry
      exact ⟨g, rfl, hfg⟩
  missed := by
    intro _ ws ws' hw hmissed
    have hrel := find?_zipIdx_calledAs h ws 0
    rw [lookupFunction_alike gs hw]
    unfold lookupFunction at hmissed ⊢
    rw [hmissed] at hrel
    generalize (gs.zipIdx.find? fun entry => entry.1.accepts ws) = found' at hrel ⊢
    cases hrel
    rfl

/-- What holds of each place of a list, and of the one place that another list has
    changed, holds of the two lists place by place. -/
theorem forall₂_mapIdx_modify {α β γ : Type} {R : β → γ → Prop} {xs : List α} {i : Nat} {change : α → α}
    {f : Nat → α → β} {g : Nat → α → γ} (hsame : ∀ k x, xs[k]? = some x → R (f k x) (g k x))
    (hchanged : ∀ x, xs[i]? = some x → R (f i x) (g i (change x))) :
    List.Forall₂ R (xs.mapIdx f) ((xs.modify i change).mapIdx g) := by
  refine List.forall₂_iff_get.2 ⟨by simp, fun k hk hk' => ?_⟩
  have hlt : k < xs.length := by simpa using hk
  simp only [List.get_eq_getElem, List.getElem_mapIdx, List.getElem_modify]
  split_ifs with hik
  · subst hik
    exact hchanged _ (List.getElem?_eq_getElem hlt)
  · exact hsame _ _ (List.getElem?_eq_getElem hlt)

/-- The number that a definition has is its symbol. -/
theorem Definition.symbol_check (x : Definition) (fs : List Function) (n : Nat) :
    (x.check fs n).value.symbol? = some n := rfl

/-- The document with the new name for the old one in the definition at a place. -/
def Document.renamedAt (σ : Renaming) (i : Nat) (d : Document) : Document :=
  ⟨d.definitions.modify i (Definition.renamed σ)⟩

section
variable {σ : Renaming} {d : Document} {i : Nat} {x : Definition}

theorem Document.functions_calledAs (σ : Renaming) (i : Nat) (d : Document) :
    List.Forall₂ Function.CalledAs d.functions (d.renamedAt σ i).functions := by
  have hbuiltins : List.Forall₂ Function.CalledAs signedBuiltins signedBuiltins :=
    List.forall₂_same.2 fun f _ => .refl f
  have hown : List.Forall₂ Function.CalledAs (d.definitions.mapIdx fun k x => x.signed (k + 1))
      ((d.renamedAt σ i).definitions.mapIdx fun k x => x.signed (k + 1)) := by
    refine forall₂_mapIdx_modify (fun k x _ => .refl _) fun x _ => ?_
    rw [(x.sign_renamed (i + 1)).1]
    exact ⟨Function.sameFace_renamed _, Function.accepts_renamed _⟩
  exact List.rel_append hbuiltins hown

/-- A definition that is clean is so among the functions of the renamed document,
    with the same code. -/
theorem Document.Clean.check_renamedAt (hd : d.Clean) (σ : Renaming) (i : Nat) {k : Nat} {x : Definition}
    (hx : d.definitions[k]? = some x) :
    (x.check (d.renamedAt σ i).functions (k + 1)).reports = [] ∧
      (x.check d.functions (k + 1)).value.RunsAs (x.check (d.renamedAt σ i).functions (k + 1)).value := by
  have hr := resolves_of_calledAs (Document.functions_calledAs σ i d) False
  obtain ⟨hreports, halike⟩ := Definition.check_alike hr
    (hd.signatures x (List.mem_of_getElem? hx)) (hd.bodies k x hx) (k + 1)
  have hsymbol := (x.symbol_check (d.renamedAt σ i).functions (k + 1)).trans (x.symbol_check d.functions (k + 1)).symm
  exact ⟨hreports, halike.runsAs hsymbol⟩

variable (hd : d.Clean) (hx : d.definitions[i]? = some x) (hσ : σ.Suits x)
include hd hx hσ

/-- **A clean document is clean under the new name.** -/
theorem Document.Clean.renamedAt : (d.renamedAt σ i).Clean := by
  have hsigned : ∀ y ∈ d.definitions, (y.declared.sign 0).reports = [] := hd.signatures
  refine ⟨fun y hy => ?_, fun k y hy => ?_⟩
  · obtain ⟨k, hk⟩ := List.mem_iff_getElem?.1 hy
    rw [Document.renamedAt, List.getElem?_modify] at hk
    obtain ⟨z, hz, rfl⟩ := Option.map_eq_some_iff.1 hk
    split_ifs
    · exact (z.sign_renamed 0).2.trans (hsigned z (List.mem_of_getElem? hz))
    · exact hsigned z (List.mem_of_getElem? hz)
  · rw [Document.renamedAt, List.getElem?_modify] at hy
    obtain ⟨z, hz, rfl⟩ := Option.map_eq_some_iff.1 hy
    have hz' := (hd.check_renamedAt σ i hz).1
    split_ifs with hik
    · subst hik
      obtain rfl : x = z := Option.some.inj (hx.symm.trans hz)
      rw [Definition.check_renamed hσ (hsigned _ (List.mem_of_getElem? hz))]
      exact hz'
    · exact hz'

/-- **A clean document makes the same program under the new name.** -/
theorem Document.Clean.program_renamedAt (hds : d.Sound) :
    (Tree.ofDocument true (d.renamedAt σ i)).value.program = (Tree.ofDocument true d).value.program := by
  have he := hd.renamedAt hx hσ
  have hbuiltins : List.Forall₂ Function.RunsAs signedBuiltins signedBuiltins :=
    List.forall₂_same.2 fun f _ => .refl f
  have hown : List.Forall₂ Function.RunsAs
      (d.definitions.mapIdx fun k y => (y.check d.functions (k + 1)).value)
      ((d.renamedAt σ i).definitions.mapIdx fun k y =>
        (y.check (d.renamedAt σ i).functions (k + 1)).value) := by
    refine forall₂_mapIdx_modify (fun k y hy => (hd.check_renamedAt σ i hy).2) fun y hy => ?_
    obtain rfl : x = y := Option.some.inj (hx.symm.trans hy)
    rw [Definition.check_renamed hσ (hd.signatures x (List.mem_of_getElem? hy))]
    exact (hd.check_renamedAt σ i hy).2.trans (Function.runsAs_renamed σ _)
  refine Tree.program_eq_of_runsAs (Tree.wellTyped_of_clean hds hd).1 ?_
  rw [Tree.functions_of_clean hd, Tree.functions_of_clean he]
  exact List.rel_append hbuiltins hown

end

/-! ## Texts -/

/-- **The names of parameters do not matter.**  In a text without reports, a parameter
    of a definition may get any name that no other name or word in that definition is:
    there is still nothing to report, and the program is the same. -/
theorem program_renamed_parameter {source : String} (h : (Analysis.ofSource source).reports = []) {i : Nat}
    {x : Definition} (hx : (Analysis.ofSource source).document.definitions[i]? = some x) {σ : Renaming}
    (hold : ∃ p ∈ x.pattern.parameters, Text.sameWord p.name σ.old = true)
    (hnew : ∀ w ∈ x.words, Text.sameWord w σ.new = false) :
    let renamed := Tree.ofDocument true ((Analysis.ofSource source).document.renamedAt σ i)
    renamed.reports = [] ∧ renamed.value.program = (Analysis.ofSource source).tree.program := by
  obtain ⟨-, hds, hd, htree⟩ := Analysis.clean_of_reports h
  have hσ : σ.Suits x := ⟨hold, hnew⟩
  rw [htree]
  generalize (Analysis.ofSource source).document = d at *
  exact ⟨by rw [Tree.ofDocument_of_clean (hd.renamedAt hx hσ)], hd.program_renamedAt hx hσ hds⟩

section Sample

/-- A function whose parameter is written in both letter cases, in a block and behind it. -/
def echoSource : String :=
  "Offentlig funktion f tilbagegiver heltal. Goddag. Print (g 2). Farvel. " ++
  "Offentlig funktion g (X som heltal) tilbagegiver heltal. Goddag. " ++
  "Imens sandt. Goddag. Print x. Farvel. Tilbagegiv X. Farvel."

/-- The parameter of the second function gets the name that is the function's word. -/
theorem program_echo_renamed :
    let d := (Analysis.ofSource echoSource).document.renamedAt ⟨"x", "g"⟩ 1
    (d.definitions.map fun x => x.pattern.text) = ["f", "g (g som heltal)"] ∧
      (Tree.ofDocument true d).reports = [] ∧
        (Tree.ofDocument true d).value.program = (Analysis.ofSource echoSource).tree.program := by
  have hanalysis : let ds := (Analysis.ofSource echoSource).document.definitions
      (Analysis.ofSource echoSource).reports = [] ∧ 1 < ds.length ∧
        ∀ x ∈ ds[1]?, (∃ p ∈ x.pattern.parameters, Text.sameWord p.name "x" = true) ∧
          ∀ w ∈ x.words, Text.sameWord w "g" = false := by
    decide +kernel
  obtain ⟨hreports, hplace, hsuits⟩ := hanalysis
  have hx := List.getElem?_eq_getElem hplace
  obtain ⟨hold, hnew⟩ := hsuits _ hx
  intro d
  exact ⟨by decide +kernel, program_renamed_parameter hreports hx hold hnew⟩

end Sample

end DanishProse

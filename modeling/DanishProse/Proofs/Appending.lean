/-
  Functions written behind others leave them as they are.

  * `tokens_isPrefix`: a text goes on with the same tokens on a new line, since no
    token goes on over the end of a line;
  * `DefinitionsDerive.isPrefix`: tokens that go on derive the same definitions first;
  * `resolves_append`: a call that finds a function finds the same one if others
    follow;
  * `Tree.Embeds.program_isPrefix`: functions that stand first have the same symbols and
    the same code;
  * `compile_append`: a program with more functions behind it begins with what it was,
    and runs as before.
-/
import DanishProse.Proofs.Acceptance
import DanishProse.Proofs.Placement
import DanishProse.Proofs.Writing

namespace DanishProse

/-! ## Tokens -/

section
variable {α : Type} {p : α → Bool}

theorem takeWhile_append_cons (cs : List α) {d : α} (hd : p d = false) (ds : List α) :
    (cs ++ d :: ds).takeWhile p = cs.takeWhile p := by
  induction cs with
  | nil => simp [hd]
  | cons c cs ih =>
    cases hc : p c with
    | false => simp [hc]
    | true => simp [hc, ih]

theorem takeWhile_append_of_mem {cs : List α} {d : α} (hmem : d ∈ cs) (hd : p d = false) (ds : List α) :
    (cs ++ ds).takeWhile p = cs.takeWhile p := by
  obtain ⟨front, back, rfl⟩ := List.append_of_mem hmem
  rw [List.append_assoc, List.cons_append, takeWhile_append_cons front hd, takeWhile_append_cons front hd]

end

theorem numberReach_newline (cs ds : List Char) : numberReach (cs ++ '\n' :: ds) = numberReach cs := by
  have hnewline : isDigit '\n' = false := by decide
  fun_induction numberReach cs with
  | case1 => cases ds <;> simp [numberReach, hnewline]
  | case2 c hc => cases ds <;> simp [numberReach, hnewline, hc]
  | case3 c hc => simp [numberReach, hnewline, hc]
  | case4 c d cs hc ih => simpa [numberReach, hc] using ih
  | case5 c d cs hc hcomma ih => simpa [numberReach, hc, hcomma] using ih
  | case6 c d cs hc hcomma => simp [numberReach, hc, hcomma]

theorem numberReach_le (cs : List Char) : numberReach cs ≤ cs.length := by
  fun_induction numberReach cs <;> simp_all

theorem reach_le (c : Char) (cs : List Char) : reach c cs ≤ cs.length := by
  have htake (p : Char → Bool) (ds : List Char) : (ds.takeWhile p).length ≤ ds.length :=
    (List.takeWhile_prefix p).length_le
  unfold reach
  split_ifs
  · exact htake _ _
  · dsimp only
    split_ifs
    · have hword := htake isWordRest cs
      have hline := htake (· ≠ '\n') (cs.drop (cs.takeWhile isWordRest).length)
      rw [List.length_drop] at hline
      omega
    · exact htake _ _
  · exact numberReach_le cs
  · exact Nat.zero_le _

/-- No piece goes on over the end of a line but one of white space. -/
theorem reach_newline {c : Char} {cs : List Char} (ds : List Char)
    (h : Text.isAsciiBlank c = true → ∃ d ∈ cs, Text.isAsciiBlank d = false) :
    reach c (cs ++ '\n' :: ds) = reach c cs := by
  unfold reach
  by_cases hblank : Text.isAsciiBlank c = true
  · obtain ⟨d, hmem, hd⟩ := h hblank
    rw [if_pos hblank, if_pos hblank, takeWhile_append_of_mem hmem hd]
  · rw [if_neg hblank, if_neg hblank, numberReach_newline, takeWhile_append_cons cs (by decide) ds]
    dsimp only
    rw [List.drop_append_of_le_length (List.takeWhile_prefix _).length_le,
      takeWhile_append_cons _ (by decide) ds]

theorem scan_newline (l : Location) (cs ds : List Char) :
    (scan l cs).filterMap Piece.token? <+: (scan l (cs ++ '\n' :: ds)).filterMap Piece.token? := by
  fun_induction scan l cs with
  | case1 => exact List.nil_prefix
  | case2 l c cs n text ih =>
    by_cases h : Text.isAsciiBlank c = true → ∃ d ∈ cs, Text.isAsciiBlank d = false
    · have hle : n ≤ cs.length := reach_le c cs
      have hscan : scan l (c :: cs ++ '\n' :: ds) =
          ⟨role c (cs.take n), text, l⟩ :: scan (l.after text) (cs.drop n ++ '\n' :: ds) := by
        rw [List.cons_append, scan, reach_newline ds h, List.take_append_of_le_length hle,
          List.drop_append_of_le_length hle]
      rw [hscan, List.filterMap_cons, List.filterMap_cons]
      split
      · exact ih
      · exact (List.prefix_cons_inj _).2 ih
    · -- White space up to the end of the text may go on, but is no token.
      obtain ⟨hblank, hall⟩ := Classical.not_imp.1 h
      have hrest : cs.dropWhile Text.isAsciiBlank = [] :=
        List.dropWhile_eq_nil_iff.2 fun d hd => by
          by_contra hno
          exact hall ⟨d, hd, Bool.eq_false_iff.2 hno⟩
      have hnone : (scan l (c :: cs)).filterMap Piece.token? = [] := by
        rw [scan_blank hblank, hrest]
        simp [scan, Piece.token?, List.filterMap_cons]
      rw [scan] at hnone
      rw [hnone]
      exact List.nil_prefix

/-- **A text goes on with the same tokens** on a new line. -/
theorem tokens_isPrefix (source more : String) :
    (Token.ofSource source).beforeEnd <+: (Token.ofSource (source ++ "\n" ++ more)).beforeEnd := by
  have htext : (source ++ "\n" ++ more).toList = source.toList ++ '\n' :: more.toList := by
    simp
  rw [beforeEnd_eq, beforeEnd_eq, htext]
  exact (scan_newline .start source.toList more.toList).filter _

/-! ## Definitions -/

theorem DefinitionsDerive.eq_nil {lax : Bool} {ds : List Definition} (h : DefinitionsDerive lax ds []) :
    ds = [] := by
  generalize hts : ([] : List Token) = ts at h
  cases h with
  | nil => rfl
  | cons hd _ =>
    cases hd
    cases hts
  | skip _ _ _ _ => cases hts

/-- Tokens that begin like a definition derive one first, and it is what is read. -/
theorem DefinitionsDerive.cons_inv {t u : Token} {ts : List Token} {es : List Definition}
    (h : DefinitionsDerive true es (t :: u :: ts)) (hl : ∀ v ∈ t :: u :: ts, v.Lexed)
    (hu : u.reads "funktion" = true) :
    ∃ e more rest, es = e :: more ∧ DefinitionsDerive true more rest ∧
      ∀ ending, Reader.Reads definition ending ts e rest := by
  generalize hts : t :: u :: ts = vs at h
  cases h with
  | nil => cases hts
  | @cons e more ws rest hd hmore =>
    rw [hts] at hl
    obtain ⟨t', u', ws, rfl, -, -, hreads⟩ := reads_of_definition_derives hd (List.forall_mem_append.1 hl).1
    cases hts
    exact ⟨e, more, rest, rfl, hmore, fun ending => hreads ending rest⟩
  | skip _ _ hf _ =>
    cases hts
    exact absurd hu (Bool.eq_false_iff.1 hf)

/-- Tokens that begin with a lone word have it skipped. -/
theorem DefinitionsDerive.skip_inv {t u : Token} {ts : List Token} {es : List Definition}
    (h : DefinitionsDerive true es (t :: u :: ts)) (hl : ∀ v ∈ t :: u :: ts, v.Lexed)
    (hu : u.reads "funktion" = false) : DefinitionsDerive true es (u :: ts) := by
  generalize hts : t :: u :: ts = vs at h
  cases h with
  | nil => cases hts
  | cons hd _ =>
    rw [hts] at hl
    obtain ⟨t', u', ws, rfl, -, hu', -⟩ := reads_of_definition_derives hd (List.forall_mem_append.1 hl).1
    cases hts
    exact absurd hu' (Bool.eq_false_iff.1 hu)
  | skip _ _ _ hds =>
    cases hts
    exact hds

/-- **Tokens that go on derive the same definitions first.** -/
theorem DefinitionsDerive.isPrefix {ds es : List Definition} {ts us : List Token}
    (h : DefinitionsDerive true ds ts) (h' : DefinitionsDerive true es (ts ++ us))
    (hl : ∀ t ∈ ts ++ us, t.Lexed) : ds <+: es := by
  induction h generalizing es with
  | nil => exact List.nil_prefix
  | @cons d ds vs ws hd hds ih =>
    obtain ⟨t, u, vs, rfl, -, hu, hreads⟩ :=
      reads_of_definition_derives hd fun v hv => hl v (by simp [hv])
    rw [List.append_assoc] at h' hl
    obtain ⟨e, more, rest, rfl, hmore, hreads'⟩ := h'.cons_inv hl hu
    obtain ⟨-, rfl, hrest⟩ := hreads .start (ws ++ us)
    obtain ⟨-, rfl, hrest'⟩ := hreads' .start
    obtain rfl := hrest.symm.trans hrest'
    exact (List.prefix_cons_inj _).2 (ih hmore fun v hv => hl v (by simp [hv]))
  | @skip t ds vs _ _ hf hds ih =>
    cases vs with
    | nil =>
      -- the word that is left at the end may begin a definition now, but ends none before it
      rw [hds.eq_nil]
      exact List.nil_prefix
    | cons v vs => exact ih (h'.skip_inv hl hf) (List.forall_mem_cons.1 hl).2

/-! ## Calls -/

/-- **A call that finds a function finds the same one if others follow.** -/
theorem resolves_append (fs more : List Function) : Resolves False id fs (fs ++ more) where
  found := by
    intro ws ws' hw f i hfound
    refine ⟨f, ?_, .refl f⟩
    rw [lookupFunction_alike _ hw, lookupFunction_append, hfound]
    rfl
  missed h := h.elim

section
variable {d e : Document} (h : d.definitions <+: e.definitions)
include h

/-- Definitions that others follow stay where they are. -/
theorem Document.places_of_isPrefix : d.Places id e := by
  obtain ⟨ds, hds⟩ := h
  intro k x hx
  rw [← hds, id, List.getElem?_append_left (List.getElem?_eq_some_iff.1 hx).1, hx]

theorem Document.resolves_of_isPrefix : Resolves False (behindBuiltins id) d.functions e.functions := by
  obtain ⟨ds, hds⟩ := h
  rw [behindBuiltins_id, Document.functions, Document.functions, ← hds, List.mapIdx_append, ← List.append_assoc]
  exact resolves_append _ _

end

/-! ## Code -/

section
variable {t u : Tree} (h : t.Embeds id u)
include h

/-- Functions whose counterparts are at the same places come first. -/
theorem Tree.Embeds.alike_take : FunctionsAlike t.functions (u.functions.take t.functions.length) := by
  have hat : ∀ i (hi : i < t.functions.length), ∃ g, u.functions[i]? = some g ∧ t.functions[i].Alike id g :=
    fun i hi => h.function i _ (List.getElem?_eq_getElem hi)
  have hle : t.functions.length ≤ u.functions.length := by
    by_contra hgt
    obtain ⟨g, hg, -⟩ := hat u.functions.length (Nat.lt_of_not_le hgt)
    simp at hg
  refine List.forall₂_iff_get.2 ⟨by simp [hle], fun i hi hi' => ?_⟩
  obtain ⟨g, hg, hfg⟩ := hat i hi
  obtain ⟨hlt, rfl⟩ := List.getElem?_eq_some_iff.1 hg
  simpa using hfg

/-- **Functions that stand first have the same symbols and the same code.** -/
theorem Tree.Embeds.program_isPrefix (ht : t.WellTyped) (hu : u.WellTyped) :
    t.program.symbols <+: u.program.symbols ∧ t.program.code.toList <+: u.program.code.toList := by
  have hfs := List.take_append_drop t.functions.length u.functions
  have hwhole := assemble_append u.functions 0 (u.functions.take t.functions.length)
    (u.functions.drop t.functions.length)
  rw [Tree.assemble_eq_of_alike ht hu hfs.symm h.alike_take, hfs] at hwhole
  rw [Tree.program, Tree.program, hwhole]
  dsimp only
  rw [List.flatMap_append]
  exact ⟨List.prefix_append _ _, List.prefix_append _ _⟩

end

/-! ## Texts -/

/-- A text that goes on says the same first. -/
theorem definitions_isPrefix {source more : String} (h : (Analysis.ofSource source).reports = [])
    (h' : (Analysis.ofSource (source ++ "\n" ++ more)).reports = []) :
    (Analysis.ofSource source).document.definitions <+:
      (Analysis.ofSource (source ++ "\n" ++ more)).document.definitions := by
  have hds := (ofTokens_iff_derives _ _).1 (Analysis.clean_of_reports h).1
  have hes := (ofTokens_iff_derives _ _).1 (Analysis.clean_of_reports h').1
  obtain ⟨-, -, hlexed⟩ := tokens_ofSource (source ++ "\n" ++ more)
  obtain ⟨us, hus⟩ := tokens_isPrefix source more
  rw [← hus] at hes hlexed
  exact DefinitionsDerive.isPrefix hds hes fun t ht => (hlexed t ht).1

section
variable {source more : String} {p q : Program} (hp : compile source = .ok p)
  (hq : compile (source ++ "\n" ++ more) = .ok q)
include hp hq

/-- The functions of a text stay where they are if it goes on. -/
theorem embeds_of_append : Tree.Embeds id (Analysis.ofSource source).tree
    (Analysis.ofSource (source ++ "\n" ++ more)).tree := by
  obtain ⟨hreports, -⟩ := compile_eq_ok_iff.1 hp
  obtain ⟨hreports', -⟩ := compile_eq_ok_iff.1 hq
  have hprefix := definitions_isPrefix hreports hreports'
  obtain ⟨-, hds, hd, ht⟩ := Analysis.clean_of_reports hreports
  obtain ⟨-, hes, he, hu⟩ := Analysis.clean_of_reports hreports'
  have hembeds := (Document.places_of_isPrefix hprefix).embeds (Document.resolves_of_isPrefix hprefix)
    hd he hds hes rfl
  rwa [← ht, ← hu, behindBuiltins_id] at hembeds

/-- **A text that goes on compiles to a program that begins as before**, and which runs as
    before if the text has a function. -/
theorem compile_append : p.symbols <+: q.symbols ∧ p.code.toList <+: q.code.toList ∧
    ((Analysis.ofSource source).document.definitions ≠ [] →
      (Analysis.ofSource (source ++ "\n" ++ more)).tree.Fits →
        ∀ settings, q.run settings = p.run settings) := by
  have hprefix := definitions_isPrefix (compile_eq_ok_iff.1 hp).1 (compile_eq_ok_iff.1 hq).1
  have hembeds := embeds_of_append hp hq
  obtain ⟨ht, rfl, hpatterns⟩ := wellTyped_of_compile hp
  obtain ⟨hu, rfl, hpatterns'⟩ := wellTyped_of_compile hq
  obtain ⟨hsymbols, hcode⟩ := hembeds.program_isPrefix ht hu
  refine ⟨hsymbols, hcode, fun hne hfit' settings => ?_⟩
  have hcount := congrArg List.length hpatterns
  have hcount' := congrArg List.length hpatterns'
  rw [List.length_map, List.length_map] at hcount hcount'
  have hfit : (Analysis.ofSource source).tree.Fits := by
    refine ⟨?_, hembeds.locals_lt hfit'.locals, ?_⟩
    · have hfunctions := hfit'.functions
      have hle := hprefix.length_le
      omega
    · exact Nat.lt_of_le_of_lt hcode.length_le hfit'.code
  refine hembeds.run_eq ht hu hfit hfit' (fun hnil => hne ?_) settings
  rw [hnil] at hcount
  exact List.length_eq_zero_iff.1 hcount.symm

end

section Sample

/-- Another function that fits the call of the sample. -/
def secondSource : String :=
  "Offentlig funktion g (Y som heltal) tilbagegiver heltal. Goddag. Tilbagegiv 3. Farvel."

/-- The sample with another function behind it. -/
def longerProgram : Program :=
  ⟨[⟨1, 0, 0⟩, ⟨2, 8, 13⟩, ⟨3, 8, 21⟩],
    #[1, 2, 25, 2, 0x99, 0xef, 0xbe, 0xad, 0xde, 4, 1, 0, 26, 3, 0, 2, 0, 26, 1, 0, 26, 3, 0, 1, 3, 26,
      1, 0, 26]⟩

theorem compile_sample_append : compile (sampleSource ++ "\n" ++ secondSource) = .ok longerProgram ∧
    sampleProgram.symbols <+: longerProgram.symbols ∧
      sampleProgram.code.toList <+: longerProgram.code.toList ∧
        ∀ settings, longerProgram.run settings = sampleProgram.run settings := by
  have hanalysis : let a := Analysis.ofSource (sampleSource ++ "\n" ++ secondSource)
      a.reports = [] ∧ a.tree.program = longerProgram ∧
        a.tree.userFunctions.map (fun f => f.locals.length) = [0, 1, 1] := by
    decide +kernel
  obtain ⟨hreports, hprogram, hlocals⟩ := hanalysis
  have hcompile : compile (sampleSource ++ "\n" ++ secondSource) = .ok longerProgram :=
    compile_eq_ok_iff.2 ⟨hreports, hprogram⟩
  have hfit : (Analysis.ofSource (sampleSource ++ "\n" ++ secondSource)).tree.Fits :=
    Tree.fits_of_locals hlocals (Nat.lt_of_lt_of_le (by decide : 3 < 4) (by decide)) (by decide)
      (by rw [hprogram]; decide)
  have hne : (Analysis.ofSource sampleSource).document.definitions ≠ [] := by
    intro hnil
    obtain ⟨f, g, hfunctions, -⟩ := userFunctions_sample
    obtain ⟨-, -, hpatterns⟩ := wellTyped_of_compile compile_sample
    rw [hnil, hfunctions] at hpatterns
    cases hpatterns
  obtain ⟨hsymbols, hcode, hrun⟩ := compile_append compile_sample hcompile
  exact ⟨hcompile, hsymbols, hcode, hrun hne hfit⟩

end Sample

end DanishProse

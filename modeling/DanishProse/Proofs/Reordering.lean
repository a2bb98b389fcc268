/-
  The order of functions makes no difference if no call fits two of them.

  * `Pattern.Apart`: two patterns differ in length, or at some position.  No clause
    fits both (`Pattern.Apart.not_fitAll`);
  * `Document.Places.resolves`: if patterns are apart, a call finds its function
    wherever it stands;
  * `clean_of_perm`: a document is clean in any order of its definitions;
  * `run_reordered`: and its programs run in the same way, as long as the first
    function stays the first.
-/
import Mathlib.Data.List.Zip
import DanishProse.Proofs.Placement

namespace DanishProse

/-! ## Patterns that are apart -/

/-- Positions that no clause fits both: different words, different types, or a word and a
    parameter. -/
def PatternPart.apart : PatternPart → PatternPart → Bool
  | .word v, .word w => !Text.sameWord v w
  | .parameter _ v, .parameter _ w => Ty.named? v ≠ Ty.named? w
  | .word _, .parameter _ _ => true
  | .parameter _ _, .word _ => true

/-- Patterns of different lengths, or with positions that are apart. -/
def Pattern.Apart (p q : Pattern) : Prop :=
  p.parts.length ≠ q.parts.length ∨ ∃ x ∈ p.parts.zip q.parts, x.1.apart x.2 = true

instance (p q : Pattern) : Decidable (p.Apart q) :=
  inferInstanceAs (Decidable (_ ∨ _))

/-- Any two definitions have patterns that are apart. -/
def Document.Apart (d : Document) : Prop :=
  d.definitions.Pairwise fun x y => x.pattern.Apart y.pattern

theorem PatternPart.apart_comm (p q : PatternPart) : p.apart q = q.apart p := by
  cases p with
  | word v =>
    cases q with
    | word w => rw [apart, apart, Text.sameWord_comm]
    | parameter name w => rfl
  | parameter name v =>
    cases q with
    | word w => rfl
    | parameter name' w => rw [apart, apart, decide_eq_decide, ne_comm]

theorem Pattern.Apart.symm {p q : Pattern} (h : p.Apart q) : q.Apart p := by
  rcases h with h | ⟨⟨a, b⟩, hx, hab⟩
  · exact .inl h.symm
  · refine .inr ⟨(b, a), ?_, by rwa [PatternPart.apart_comm]⟩
    rw [← List.zip_swap]
    exact List.mem_map_of_mem (f := Prod.swap) hx

/-- A type is the one with its name. -/
theorem Ty.named?_of_sameWord {name : String} {ty : Ty} (h : Text.sameWord name ty.name = true) :
    Ty.named? name = some ty := by
  refine find?_eq_some_of_unique ?_ (by rwa [Text.sameWord_comm]) fun other _ hother => ?_
  · cases ty <;> decide
  · exact Ty.eq_of_sameWord (Text.sameWord_trans hother h)

/-- A value that fits a parameter which was read is of its type. -/
theorem PatternPart.named?_of_fits {name typeName : String} {ty : Ty}
    (hs : (PatternPart.parameter name typeName).Sound)
    (h : (PatternPart.parameter name typeName).fits (.value ty) = true) : Ty.named? typeName = some ty := by
  rcases Bool.or_eq_true_iff.1 h with hany | hty
  · rw [Text.sameWord_comm, sameWord_dollar (hs typeName rfl) Ty.any.name ['a', 'n', 'y'] (by decide)] at hany
    cases hany
  · exact Ty.named?_of_sameWord hty

/-- Nothing fits two positions that are apart. -/
theorem PatternPart.not_fits {p q : PatternPart} (hp : p.Sound) (hq : q.Sound) (h : p.apart q = true)
    {w : Wanted} (hfit : p.fits w = true) : q.fits w = false := by
  cases w with
  | word text =>
    cases p with
    | parameter name v => cases hfit
    | word v =>
      cases q with
      | parameter name' v' => rfl
      | word v' =>
        rw [Bool.eq_false_iff]
        intro hfit'
        have hsame : Text.sameWord v v' = true :=
          Text.sameWord_trans hfit (by rw [Text.sameWord_comm]; exact hfit')
        rw [apart, hsame] at h
        cases h
  | value ty =>
    cases p with
    | word v => cases hfit
    | parameter name v =>
      cases q with
      | word v' => rfl
      | parameter name' v' =>
        rw [Bool.eq_false_iff]
        intro hfit'
        rw [apart, PatternPart.named?_of_fits hp hfit, PatternPart.named?_of_fits hq hfit'] at h
        simp at h

/-- Patterns that one clause fits have as many positions, and something fits both at each. -/
theorem fitAll_zip {ps qs : List PatternPart} {ws : List Wanted} (hp : fitAll ps ws = true)
    (hq : fitAll qs ws = true) :
    ps.length = qs.length ∧ ∀ x ∈ ps.zip qs, ∃ w, x.1.fits w = true ∧ x.2.fits w = true := by
  induction ws generalizing ps qs with
  | nil =>
    cases ps with
    | cons p ps => cases hp
    | nil =>
      cases qs with
      | cons q qs => cases hq
      | nil => exact ⟨rfl, by simp⟩
  | cons w ws ih =>
    cases ps with
    | nil => cases hp
    | cons p ps =>
      cases qs with
      | nil => cases hq
      | cons q qs =>
        obtain ⟨hp, hps⟩ := Bool.and_eq_true_iff.1 hp
        obtain ⟨hq, hqs⟩ := Bool.and_eq_true_iff.1 hq
        obtain ⟨hlen, hall⟩ := ih hps hqs
        exact ⟨congrArg (· + 1) hlen, List.forall_mem_cons.2 ⟨⟨w, hp, hq⟩, hall⟩⟩

/-- **No clause fits two patterns that are apart.** -/
theorem Pattern.Apart.not_fitAll {p q : Pattern} (h : p.Apart q) (hp : ∀ part ∈ p.parts, part.Sound)
    (hq : ∀ part ∈ q.parts, part.Sound) {ws : List Wanted} (hfit : fitAll p.parts ws = true) :
    fitAll q.parts ws = false := by
  rw [Bool.eq_false_iff]
  intro hfit'
  obtain ⟨hlen, hall⟩ := fitAll_zip hfit hfit'
  rcases h with h | ⟨⟨a, b⟩, hx, hab⟩
  · exact h hlen
  · obtain ⟨w, ha, hb⟩ := hall _ hx
    obtain ⟨hmem, hmem'⟩ := List.of_mem_zip hx
    rw [PatternPart.not_fits (hp a hmem) (hq b hmem') hab ha] at hb
    cases hb

/-! ## Calls -/

/-- The functions of a document that have bodies, with their indices. -/
def Document.numbered (d : Document) : List (Function × Nat) :=
  (d.definitions.mapIdx fun k x => x.signed (k + 1)).zipIdx signedBuiltins.length

theorem lookupFunction_functions (d : Document) (ws : List Wanted) : lookupFunction d.functions ws =
    (lookupFunction signedBuiltins ws).or (d.numbered.find? fun entry => entry.1.accepts ws) :=
  lookupFunction_append _ _ _

section
variable {σ : Nat → Nat} {d e : Document} {ws : List Wanted}

theorem mem_numbered {f : Function} {i : Nat} : (f, i) ∈ d.numbered ↔
    ∃ k x, d.definitions[k]? = some x ∧ f = x.signed (k + 1) ∧ i = signedBuiltins.length + k := by
  rw [Document.numbered, List.mk_mem_zipIdx_iff_le_and_getElem?_sub, List.getElem?_mapIdx, Option.map_eq_some_iff]
  constructor
  · rintro ⟨hle, x, hx, rfl⟩
    exact ⟨_, x, hx, rfl, (Nat.add_sub_cancel' hle).symm⟩
  · rintro ⟨k, x, hx, rfl, rfl⟩
    rw [Nat.add_sub_cancel_left]
    exact ⟨Nat.le_add_right _ _, x, hx, rfl⟩

/-- A clause fits one definition only, if patterns are apart. -/
theorem Document.Apart.eq_of_fitAll (hapart : d.Apart) (hd : d.Sound) {j k : Nat} {x y : Definition}
    (hx : d.definitions[k]? = some x) (hy : d.definitions[j]? = some y)
    (hfit : fitAll x.pattern.parts ws = true) (hfit' : fitAll y.pattern.parts ws = true) : j = k := by
  have hsound := (hd x (List.mem_of_getElem? hx)).parts
  have hsound' := (hd y (List.mem_of_getElem? hy)).parts
  obtain ⟨hk, rfl⟩ := List.getElem?_eq_some_iff.1 hx
  obtain ⟨hj, rfl⟩ := List.getElem?_eq_some_iff.1 hy
  have hpairs := List.pairwise_iff_getElem.1 hapart
  rcases Nat.lt_trichotomy j k with hlt | heq | hgt
  · rw [(hpairs _ _ hj hk hlt).not_fitAll hsound' hsound hfit'] at hfit
    cases hfit
  · exact heq
  · rw [(hpairs _ _ hk hj hgt).not_fitAll hsound hsound' hfit] at hfit'
    cases hfit'

/-- **If patterns are apart, a clause finds the definition that it fits**, wherever that stands. -/
theorem find?_numbered (hapart : d.Apart) (hd : d.Sound) {k : Nat} {x : Definition}
    (hx : d.definitions[k]? = some x) (hfit : fitAll x.pattern.parts ws = true) :
    d.numbered.find? (fun entry => entry.1.accepts ws) = some (x.signed (k + 1), signedBuiltins.length + k) := by
  refine find?_eq_some_of_unique (mem_numbered.2 ⟨k, x, hx, rfl, rfl⟩) hfit fun entry hmem haccepts => ?_
  obtain ⟨f, i⟩ := entry
  obtain ⟨j, y, hy, rfl, rfl⟩ := mem_numbered.1 hmem
  obtain rfl := hapart.eq_of_fitAll hd hx hy hfit haccepts
  obtain rfl := Option.some.inj (hx.symm.trans hy)
  rfl

/-- **If patterns are apart, calls find their functions wherever these stand.** -/
theorem Document.Places.resolves (hp : d.Places σ e) (hd : d.Clean) (he : e.Sound) (hapart : e.Apart) :
    Resolves False (behindBuiltins σ) d.functions e.functions where
  found := by
    intro ws ws' hw f i hfound
    rw [lookupFunction_alike _ hw]
    rw [lookupFunction_functions] at hfound ⊢
    cases hfirst : lookupFunction signedBuiltins ws with
    | some found =>
      rw [hfirst, Option.some_or] at hfound
      cases hfound
      have hlt := (List.getElem?_eq_some_iff.1 (lookupFunction_spec hfirst).1).1
      refine ⟨f, ?_, .refl f⟩
      rw [Option.some_or, behindBuiltins, if_pos (length_signedBuiltins ▸ hlt)]
    | none =>
      rw [hfirst, Option.none_or] at hfound
      obtain ⟨k, x, hx, rfl, rfl⟩ := mem_numbered.1 (List.mem_of_find?_eq_some hfound)
      have haccepts := List.find?_some hfound
      refine ⟨x.signed (σ k + 1), ?_, ?_⟩
      · rw [Option.none_or, find?_numbered hapart he (hp k x hx) haccepts, behindBuiltins,
          if_neg (by rw [length_signedBuiltins]; omega), length_signedBuiltins, Nat.add_sub_cancel_left]
      · have halike : (x.signed (k + 1)).Alike id (x.signed (σ k + 1)) :=
          x.signed_alike (hd.signatures x (List.mem_of_getElem? hx)) _ _
        exact halike.sameFace
  missed h := h.elim

end

/-! ## Documents in another order -/

section
variable {d e : Document} (h : e.definitions.Perm d.definitions)
include h

theorem Document.apart_of_perm (hapart : d.Apart) : e.Apart :=
  (h.pairwise_iff fun h => h.symm).2 hapart

theorem Document.sound_of_perm (hd : d.Sound) : e.Sound :=
  fun x hx => hd x (h.mem_iff.1 hx)

/-- Definitions in another order stand somewhere, and the first one first if it stays there. -/
theorem Document.places_of_perm (hfirst : e.definitions.head? = d.definitions.head?) :
    ∃ σ : Nat → Nat, σ 0 = 0 ∧ d.Places σ e := by
  have hplace : ∀ k, ∃ j, (k = 0 → j = 0) ∧
      ∀ x, d.definitions[k]? = some x → e.definitions[j]? = some x := by
    intro k
    cases k with
    | zero =>
      refine ⟨0, fun _ => rfl, fun x hx => ?_⟩
      rwa [← List.head?_eq_getElem?, hfirst, List.head?_eq_getElem?]
    | succ k =>
      cases hk : d.definitions[k + 1]? with
      | none => exact ⟨0, nofun, nofun⟩
      | some y =>
        obtain ⟨j, hj⟩ := List.mem_iff_getElem?.1 (h.mem_iff.2 (List.mem_of_getElem? hk))
        refine ⟨j, nofun, fun x hx => ?_⟩
        cases hx
        exact hj
  choose σ hzero hσ using hplace
  exact ⟨σ, hzero 0 rfl, hσ⟩

/-- **A document is clean in any order of its definitions**, if their patterns are apart. -/
theorem Document.clean_of_perm (hfirst : e.definitions.head? = d.definitions.head?) (hd : d.Clean)
    (hds : d.Sound) (hapart : d.Apart) : e.Clean := by
  obtain ⟨σ, -, hplaces⟩ := Document.places_of_perm h hfirst
  have hr := hplaces.resolves hd (Document.sound_of_perm h hds) (Document.apart_of_perm h hapart)
  have hsignatures : ∀ x ∈ e.definitions, (x.declared.sign 0).reports = [] :=
    fun x hx => hd.signatures x (h.mem_iff.1 hx)
  refine ⟨hsignatures, fun k x hx => ?_⟩
  have hmem := List.mem_of_getElem? hx
  obtain ⟨j, hj⟩ := List.mem_iff_getElem?.1 (h.mem_iff.1 hmem)
  exact (Definition.check_alike hr (hsignatures x hmem) (hd.bodies j x hj) _).1

end

/-! ## Programs -/

/-- **The order of functions makes no difference**, but for which one is the first: if no
    clause fits the patterns of two of them, there is nothing to report in any other
    order, and the program runs in the same way. -/
theorem run_reordered {source : String} {ds : List Definition} (h : (Analysis.ofSource source).reports = [])
    (hapart : (Analysis.ofSource source).document.Apart)
    (hperm : ds.Perm (Analysis.ofSource source).document.definitions)
    (hfirst : ds.head? = (Analysis.ofSource source).document.definitions.head?) :
    (Tree.ofDocument true ⟨ds⟩).reports = [] ∧
      ((Analysis.ofSource source).tree.Fits → (Tree.ofDocument true ⟨ds⟩).value.program.code.size < 2 ^ 64 →
        ∀ settings, (Tree.ofDocument true ⟨ds⟩).value.program.run settings =
          (Analysis.ofSource source).tree.program.run settings) := by
  obtain ⟨-, hds, hd, htree⟩ := Analysis.clean_of_reports h
  rw [htree]
  generalize (Analysis.ofSource source).document = d at *
  generalize he : (⟨ds⟩ : Document) = e
  obtain rfl : e.definitions = ds := by rw [← he]
  have hes := Document.sound_of_perm hperm hds
  have hclean := Document.clean_of_perm hperm hfirst hd hds hapart
  refine ⟨by rw [Tree.ofDocument_of_clean hclean], fun hfit hsize settings => ?_⟩
  obtain ⟨ht, hcount⟩ := Tree.wellTyped_of_clean hds hd
  obtain ⟨hu, hcount'⟩ := Tree.wellTyped_of_clean hes hclean
  -- from the new order to the old one, so that the bound on locals carries over
  obtain ⟨σ, hzero, hplaces⟩ := Document.places_of_perm hperm.symm hfirst.symm
  have hembeds := hplaces.embeds (hplaces.resolves hclean hds hapart) hclean hd hes hds hzero
  have hlength := hperm.length_eq
  by_cases hnil : (Tree.ofDocument true e).value.userFunctions = []
  · rw [hnil] at hcount'
    have hempty : e.definitions = [] := List.length_eq_zero_iff.1 hcount'.symm
    have hempty' : d.definitions = [] := List.length_eq_zero_iff.1 (by rw [← hlength, hempty]; rfl)
    have hsame : e = d := by
      cases e
      cases d
      exact congrArg Document.mk (hempty.trans hempty'.symm)
    rw [hsame]
  · refine (hembeds.run_eq hu ht ⟨?_, hembeds.locals_lt hfit.locals, hsize⟩ hfit hnil settings).symm
    have hfunctions := hfit.functions
    omega

section Sample

/-- The sample with a third function. -/
def threeSource : String :=
  sampleSource ++ " Offentlig funktion h tilbagegiver heltal. Goddag. Tilbagegiv 3. Farvel."

/-- The second and the third function may change places. -/
theorem run_three_reordered :
    let a := Analysis.ofSource threeSource
    let u := Tree.ofDocument true ⟨a.document.definitions.take 1 ++ (a.document.definitions.drop 1).reverse⟩
    u.reports = [] ∧ u.value.program ≠ a.tree.program ∧
      ∀ settings, u.value.program.run settings = a.tree.program.run settings := by
  have hanalysis : let a := Analysis.ofSource threeSource
      let u := Tree.ofDocument true ⟨a.document.definitions.take 1 ++ (a.document.definitions.drop 1).reverse⟩
      a.reports = [] ∧ (a.document.definitions.map Definition.pattern).Pairwise Pattern.Apart ∧
        a.tree.userFunctions.map (fun f => f.locals.length) = [0, 1, 0] ∧
          a.tree.program.code.size < 2 ^ 64 ∧ u.value.program.code.size < 2 ^ 64 ∧
            u.value.program ≠ a.tree.program := by
    decide +kernel
  obtain ⟨hreports, hapart, hlocals, hsize, hsize', hne⟩ := hanalysis
  have hfit : (Analysis.ofSource threeSource).tree.Fits :=
    Tree.fits_of_locals hlocals (Nat.lt_of_lt_of_le (by decide : 3 < 4) (by decide)) (by decide) hsize
  generalize hds : (Analysis.ofSource threeSource).document.definitions = ds at *
  have hperm : (ds.take 1 ++ (ds.drop 1).reverse).Perm ds := by
    conv_rhs => rw [← List.take_append_drop 1 ds]
    exact (List.reverse_perm _).append_left _
  have hfirst : (ds.take 1 ++ (ds.drop 1).reverse).head? = ds.head? := by
    cases ds <;> simp
  subst hds
  obtain ⟨hclean, hrun⟩ := run_reordered hreports (List.pairwise_map.1 hapart) hperm hfirst
  exact ⟨hclean, hne, hrun hfit hsize'⟩

end Sample

end DanishProse

/-
  Where the functions of a tree stand in its program.

  * `regions` lists the functions with bodies with their symbols and their code,
    and a program is made of just these (`Tree.program_eq_regions`);
  * the code of a region stands at the offset that its symbol says
    (`Tree.WellTyped.codeAt_region`), and the symbol is found by its number, from
    the front and from the back (`Tree.WellTyped.lookup_region`).
-/
import Mathlib.Tactic.Common
import DanishProse.Machine.Step
import DanishProse.Proofs.Operands

namespace DanishProse

/-! ## Regions -/

/-- The functions with bodies, with their symbols and their code. -/
def regions (fs : List Function) (start : Nat) : List Function → List (Symbol × List Instruction)
  | [] => []
  | f :: others =>
    let own := f.code fs start
    (f.symbolAt start).toList.map (·, own) ++ regions fs (start + codeSize own) others

/-- The bytes that the symbol of a function asks for. -/
def Function.frameSize (f : Function) : Nat :=
  min (f.locals.length * 8) 0xffffffff

/-- As many bytes as its locals take, if they fit. -/
theorem Function.frameSize_eq {f : Function} (h : f.locals.length < 2 ^ 29) :
    f.frameSize = f.locals.length * 8 :=
  Nat.min_eq_left (by omega)

theorem Tree.Fits.frameSize {t : Tree} (hfit : t.Fits) {f : Function} (hf : f ∈ t.userFunctions) :
    f.frameSize = f.locals.length * 8 :=
  Function.frameSize_eq (hfit.locals f hf)

/-- The regions of a tree. -/
def Tree.regions (t : Tree) : List (Symbol × List Instruction) :=
  DanishProse.regions t.functions 0 t.userFunctions

theorem Function.not_isUser_code {f : Function} (h : f.isUser = false) (fs : List Function)
    (start : Nat) : f.code fs start = [] ∧ f.symbolAt start = none := by
  unfold Function.code Function.symbolAt
  cases hrole : f.role with
  | user symbol locals body =>
    rw [Function.isUser, hrole] at h
    cases h
  | intrinsic op => exact ⟨rfl, rfl⟩
  | assignment => exact ⟨rfl, rfl⟩
  | native g => exact ⟨rfl, rfl⟩

theorem regions_cons {f : Function} {n : Nat} (h : f.symbol? = some n) (fs us : List Function)
    (start : Nat) :
    regions fs start (f :: us) =
      (⟨n, f.frameSize, start⟩, f.code fs start) ::
        regions fs (start + codeSize (f.code fs start)) us := by
  rw [regions, Function.symbolAt_of_symbol? h]
  rfl

theorem assemble_eq_regions (fs gs : List Function) (start : Nat) :
    assemble fs start gs =
      ⟨(regions fs start (gs.filter Function.isUser)).map Prod.fst,
        (regions fs start (gs.filter Function.isUser)).flatMap Prod.snd⟩ := by
  induction gs generalizing start with
  | nil => rfl
  | cons f gs ih =>
    cases huser : f.isUser with
    | false =>
      obtain ⟨hcode, hsymbol⟩ := Function.not_isUser_code huser fs start
      rw [List.filter_cons_of_neg (by simp [huser]), assemble, hcode, hsymbol, ih]
      rfl
    | true =>
      obtain ⟨n, hn⟩ := Function.symbol?_of_isUser huser
      rw [List.filter_cons_of_pos huser, assemble, ih, regions_cons hn,
        Function.symbolAt_of_symbol? hn]
      rfl

/-- **A program is the symbols and the code of its regions.** -/
theorem Tree.program_eq_regions (t : Tree) :
    t.program = ⟨t.regions.map Prod.fst,
      ((t.regions.flatMap Prod.snd).flatMap Instruction.bytes).toArray⟩ := by
  rw [Tree.program, assemble_eq_regions]
  rfl

/-- Each region begins where the one before it ends. -/
def Tiled : Nat → List (Symbol × List Instruction) → Prop
  | _, [] => True
  | o, (s, is) :: rs => s.offset = o ∧ Tiled (o + codeSize is) rs

theorem Tiled.offset {r : Symbol × List Instruction} {pre post : List (Symbol × List Instruction)}
    {o : Nat} (h : Tiled o (pre ++ r :: post)) :
    r.1.offset = o + codeSize (pre.flatMap Prod.snd) := by
  induction pre generalizing o with
  | nil => exact h.1
  | cons q pre ih => rw [ih h.2, List.flatMap_cons, codeSize_append, Nat.add_assoc]

section
variable {fs : List Function}

theorem regions_tiled {us : List Function} {start : Nat} (h : ∀ f ∈ us, f.isUser = true) :
    Tiled start (regions fs start us) := by
  induction us generalizing start with
  | nil => trivial
  | cons f us ih =>
    obtain ⟨hf, hus⟩ := List.forall_mem_cons.1 h
    obtain ⟨n, hn⟩ := Function.symbol?_of_isUser hf
    rw [regions_cons hn]
    exact ⟨rfl, ih hus⟩

theorem length_regions {us : List Function} {start : Nat} (h : ∀ f ∈ us, f.isUser = true) :
    (regions fs start us).length = us.length := by
  induction us generalizing start with
  | nil => rfl
  | cons f us ih =>
    obtain ⟨hf, hus⟩ := List.forall_mem_cons.1 h
    obtain ⟨n, hn⟩ := Function.symbol?_of_isUser hf
    rw [regions_cons hn, List.length_cons, ih hus, List.length_cons]

theorem regions_getElem? {f : Function} {n : Nat} (hn : f.symbol? = some n) {us : List Function}
    (start : Nat) {k : Nat} (h : ∀ f ∈ us, f.isUser = true) (hf : us[k]? = some f) :
    ∃ o, (regions fs start us)[k]? =
      some (⟨n, f.frameSize, o⟩, f.code fs o) := by
  induction us generalizing start k with
  | nil => cases hf
  | cons g us ih =>
    obtain ⟨hg, hus⟩ := List.forall_mem_cons.1 h
    obtain ⟨m, hm⟩ := Function.symbol?_of_isUser hg
    rw [regions_cons hm]
    cases k with
    | zero =>
      obtain rfl := Option.some.inj hf
      obtain rfl := Option.some.inj (hm.symm.trans hn)
      exact ⟨start, rfl⟩
    | succ k => exact ih _ hus hf

end

/-! ## Programs -/

section
variable {t : Tree} {f : Function}

/-- There is a type for each parameter of the pattern. -/
theorem Tree.WellTyped.length_parameterTypes (ht : t.WellTyped) (hf : f ∈ t.userFunctions) :
    f.parameterTypes.length = f.pattern.parameters.length := by
  obtain ⟨ps, -, -, hnames, htypes, -, -⟩ := (ht.laidOut hf).1.split
  have hlen := congrArg List.length hnames
  rw [List.length_map, List.length_map] at hlen
  rw [← htypes, List.length_map, hlen]

theorem Tree.tiled_regions (t : Tree) : Tiled 0 t.regions :=
  regions_tiled t.isUser_userFunctions

theorem Tree.length_regions (t : Tree) : t.regions.length = t.userFunctions.length :=
  DanishProse.length_regions t.isUser_userFunctions

/-- A function with a body has a region at its place. -/
theorem Tree.WellTyped.region (ht : t.WellTyped) {k : Nat} (hf : t.userFunctions[k]? = some f) :
    ∃ o, t.regions[k]? = some (⟨k + 1, f.frameSize, o⟩, f.code t.functions o) :=
  regions_getElem? (ht.symbol hf) 0 t.isUser_userFunctions hf

/-- The first function stands at the start of the code, and its symbol comes first. -/
theorem Tree.WellTyped.region_first (ht : t.WellTyped) {others : List Function}
    (hfirst : t.userFunctions = f :: others) :
    t.regions.head? = some (⟨1, f.frameSize, 0⟩, f.code t.functions 0) := by
  obtain ⟨o, ho⟩ := ht.region (k := 0) (f := f) (by rw [hfirst]; rfl)
  have htiled := t.tiled_regions
  cases hrs : t.regions with
  | nil =>
    rw [hrs] at ho
    cases ho
  | cons r rs =>
    rw [hrs] at ho htiled
    obtain rfl := Option.some.inj ho
    obtain rfl : o = 0 := htiled.1
    rfl

/-- Every region is that of a function with a body. -/
theorem Tree.WellTyped.function_of_region (ht : t.WellTyped) {k : Nat}
    {r : Symbol × List Instruction} (hr : t.regions[k]? = some r) :
    ∃ f, t.userFunctions[k]? = some f ∧
      r = (⟨k + 1, f.frameSize, r.1.offset⟩, f.code t.functions r.1.offset) := by
  have hk := (List.getElem?_eq_some_iff.1 hr).1
  rw [t.length_regions] at hk
  have hf : t.userFunctions[k]? = some t.userFunctions[k] := List.getElem?_eq_getElem hk
  obtain ⟨o, ho⟩ := ht.region hf
  obtain rfl := Option.some.inj (hr.symm.trans ho)
  exact ⟨_, hf, rfl⟩

theorem Tree.WellTyped.encodable_regions (ht : t.WellTyped) (hfit : t.Compact) :
    ∀ i ∈ t.regions.flatMap Prod.snd, i.Encodable := by
  intro i hi
  obtain ⟨r, hr, hir⟩ := List.mem_flatMap.1 hi
  obtain ⟨k, hk⟩ := List.mem_iff_getElem?.1 hr
  obtain ⟨f, hf, heq⟩ := ht.function_of_region hk
  rw [heq] at hir
  exact (Function.code_inRange ht hfit (List.mem_of_getElem? hf) _ i hir).encodable

theorem Tree.size_code (t : Tree) : t.program.code.size = codeSize (t.regions.flatMap Prod.snd) := by
  rw [t.program_eq_regions, List.size_toArray, length_flatMap_bytes]

/-- **The code of a region stands where its symbol says.** -/
theorem Tree.WellTyped.codeAt_region (ht : t.WellTyped) (hfit : t.Compact)
    {r : Symbol × List Instruction} (hr : r ∈ t.regions) :
    t.program.CodeAt r.1.offset r.2 ∧ r.1.offset + codeSize r.2 ≤ t.program.code.size := by
  obtain ⟨pre, post, hsplit⟩ := List.append_of_mem hr
  have htiled := t.tiled_regions
  rw [hsplit] at htiled
  have hoffset := htiled.offset
  rw [Nat.zero_add] at hoffset
  have hcode := codeAt_of_encodable (t.regions.map Prod.fst) [] _ [] (ht.encodable_regions hfit)
  rw [List.nil_append, List.append_nil, ← t.program_eq_regions, List.length_nil] at hcode
  have hsize := t.size_code
  rw [hsplit, List.flatMap_append, List.flatMap_cons] at hcode hsize
  simp only [codeSize_append] at hsize
  have hown := ((codeAt_append _ _ _).1 ((codeAt_append _ _ _).1 hcode).2).1
  rw [Nat.zero_add, ← hoffset] at hown
  exact ⟨hown, by omega⟩

/-- A region is not empty. -/
theorem Tree.WellTyped.codeSize_region_pos (ht : t.WellTyped)
    {r : Symbol × List Instruction} (hr : r ∈ t.regions) :
    0 < codeSize r.2 := by
  obtain ⟨k, hk⟩ := List.mem_iff_getElem?.1 hr
  obtain ⟨f, hf, heq⟩ := ht.function_of_region hk
  have hlast := Function.code_getLast? ht (List.mem_of_getElem? hf) r.1.offset
  rw [heq]
  show 0 < codeSize (f.code t.functions r.1.offset)
  cases hcode : f.code t.functions r.1.offset with
  | nil =>
    rw [hcode] at hlast
    cases hlast
  | cons i is =>
    have := i.size_pos
    rw [codeSize]
    omega

/-- Of a list in which at most one element will do, it is found. -/
theorem find?_eq_some_of_unique {α : Type} {q : α → Bool} {xs : List α} {x : α} (hx : x ∈ xs)
    (hq : q x = true) (h : ∀ y ∈ xs, q y = true → y = x) : xs.find? q = some x := by
  cases hfind : xs.find? q with
  | none => exact absurd hq (by simpa using List.find?_eq_none.1 hfind x hx)
  | some y => rw [h y (List.mem_of_find?_eq_some hfind) (List.find?_some hfind)]

/-- A symbol of a tree is the only one with its number. -/
theorem Tree.WellTyped.symbol_unique (ht : t.WellTyped)
    {r s : Symbol × List Instruction} (hr : r ∈ t.regions) (hs : s ∈ t.regions)
    (h : s.1.id = r.1.id) : s = r := by
  obtain ⟨k, hk⟩ := List.mem_iff_getElem?.1 hr
  obtain ⟨j, hj⟩ := List.mem_iff_getElem?.1 hs
  obtain ⟨f, hf, hfeq⟩ := ht.function_of_region hk
  obtain ⟨g, hg, hgeq⟩ := ht.function_of_region hj
  rw [hfeq, hgeq] at h
  obtain rfl : j = k := Nat.succ.inj h
  exact Option.some.inj (hj.symm.trans hk)

/-- **A call finds the symbol with the number, and so does a lookup from the front.** -/
theorem Tree.WellTyped.lookup_region (ht : t.WellTyped)
    {r : Symbol × List Instruction} (hr : r ∈ t.regions) :
    t.program.callee? r.1.id = some r.1 ∧ t.program.symbol? r.1.id = some r.1 := by
  have hunique : ∀ s ∈ t.regions.map Prod.fst, decide (s.id = r.1.id) = true → s = r.1 := by
    intro s hs hid
    obtain ⟨q, hq, rfl⟩ := List.mem_map.1 hs
    rw [ht.symbol_unique hr hq (of_decide_eq_true hid)]
  have hmem : r.1 ∈ t.regions.map Prod.fst := List.mem_map_of_mem hr
  rw [Program.callee?, Program.symbol?, t.program_eq_regions]
  exact ⟨find?_eq_some_of_unique (List.mem_reverse.2 hmem) (by simp)
      fun s hs => hunique s (List.mem_reverse.1 hs),
    find?_eq_some_of_unique hmem (by simp) hunique⟩

end

end DanishProse

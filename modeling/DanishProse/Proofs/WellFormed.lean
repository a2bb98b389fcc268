/-
  Emitted code is well formed, whether it is reached or not.

  * `Program.listing` are the instructions of a program with their offsets, and
    `Program.region` those of the function with a symbol: the offsets from its
    own up to the next symbol's (`Program.enclosing?`);
  * `Program.WellFormed` says what is asked of them: the code decodes, symbols
    are numbered and in order, and the operands of branches, calls and locals
    stay within regions, symbols and frames;
  * `wellFormed_of_compile`: every program that is compiled is so.
-/
import Mathlib.Tactic.Common
import DanishProse.Proofs.Marks

namespace DanishProse

/-! ## Regions of a program -/

namespace Program

/-- The instructions of a program with their offsets, as far as they can be read. -/
def listing (p : Program) : List (Nat × Instruction) :=
  p.instructions.filterMap Except.toOption

/-- The symbol of the function that an offset lies in: the last one that does not
    begin behind it. -/
def enclosing? (p : Program) (offset : Nat) : Option Symbol :=
  p.symbols.reverse.find? fun s => s.offset ≤ offset

/-- The instructions of the function with a symbol. -/
def region (p : Program) (s : Symbol) : List (Nat × Instruction) :=
  p.listing.filter fun e => p.enclosing? e.1 = some s

/-- The code of a program of some functions makes sense throughout. -/
structure WellFormed (p : Program) (functions : Nat) : Prop where
  /-- The whole code decodes. -/
  decodes : p.instructions = p.listing.map .ok
  complete : codeSize (p.listing.map Prod.snd) = p.code.size
  /-- Symbols are numbered from one, in the order of their offsets from zero. -/
  ids : p.symbols.map Symbol.id = List.range' 1 functions
  first : ∀ s, p.symbols.head? = some s → s.offset = 0
  increasing : (p.symbols.map Symbol.offset).Pairwise (· < ·)
  /-- Looked up from the front or from the back, a number has the same symbol. -/
  lookup : ∀ id, p.callee? id = p.symbol? id
  /-- A function begins with an instruction, and every instruction is in a function. -/
  boundary : ∀ s ∈ p.symbols, ∃ i, (s.offset, i) ∈ p.region s
  covered : ∀ e ∈ p.listing, ∃ s ∈ p.symbols, e ∈ p.region s
  /-- Branches stay within their function, and go to instructions. -/
  branch : ∀ s ∈ p.symbols, ∀ e ∈ p.region s, e.2.opcode = .br →
    ∃ i, (e.2.operand.toNat, i) ∈ p.region s
  call : ∀ e ∈ p.listing, e.2.opcode = .call →
    (∃ f, Native.ofId? e.2.operand.toNat = some f) ∨ ∃ s ∈ p.symbols, s.id = e.2.operand.toNat
  slot : ∀ s ∈ p.symbols, ∀ e ∈ p.region s, e.2.opcode = .ldl ∨ e.2.opcode = .stl →
    e.2.operand.toNat * 8 + 8 ≤ s.size
  /-- The last instruction of a function leaves it. -/
  leaves : ∀ s ∈ p.symbols, (p.region s).getLast?.map Prod.snd = some (.plain .ret)

end Program

/-! ## Offsets in regions -/

theorem le_of_mem_placed {e : Nat × Instruction} {is : List Instruction} {o : Nat}
    (h : e ∈ placed o is) : o ≤ e.1 ∧ e.1 < o + codeSize is := by
  induction is generalizing o with
  | nil => cases h
  | cons i is ih =>
    have hpos := i.size_pos
    rw [codeSize]
    rcases List.mem_cons.1 h with rfl | h
    · exact ⟨Nat.le_refl _, by simp; omega⟩
    · have := ih h
      omega

theorem mem_placed_append (o : Nat) (pre : List Instruction) (i : Instruction)
    (post : List Instruction) : (o + codeSize pre, i) ∈ placed o (pre ++ i :: post) := by
  rw [placed_append, placed]
  exact List.mem_append_right _ List.mem_cons_self

theorem map_snd_placed (is : List Instruction) (o : Nat) : (placed o is).map Prod.snd = is := by
  induction is generalizing o with
  | nil => rfl
  | cons i is ih => rw [placed, List.map_cons, ih]

theorem mem_of_mem_placed {e : Nat × Instruction} {is : List Instruction} {o : Nat}
    (h : e ∈ placed o is) : e.2 ∈ is := by
  have hmem := List.mem_map_of_mem (f := Prod.snd) h
  rwa [map_snd_placed] at hmem

namespace Tiled
variable {r : Symbol × List Instruction} {rs pre post : List (Symbol × List Instruction)}

theorem le_offset {o : Nat} (h : Tiled o rs) (hr : r ∈ rs) : o ≤ r.1.offset := by
  induction rs generalizing o with
  | nil => cases hr
  | cons q rs ih =>
    rcases List.mem_cons.1 hr with rfl | hr
    · exact Nat.le_of_eq h.1.symm
    · exact Nat.le_trans (Nat.le_add_right _ _) (ih h.2 hr)

theorem right {o : Nat} (h : Tiled o (pre ++ rs)) :
    Tiled (o + codeSize (pre.flatMap Prod.snd)) rs := by
  induction pre generalizing o with
  | nil => exact h
  | cons q pre ih =>
    rw [List.flatMap_cons, codeSize_append, ← Nat.add_assoc]
    exact ih h.2

/-- What comes after a region begins behind it. -/
theorem end_le_offset {o : Nat} (h : Tiled o (pre ++ r :: post)) {q : Symbol × List Instruction}
    (hq : q ∈ post) : r.1.offset + codeSize r.2 ≤ q.1.offset := by
  have htail := h.right.2
  rw [← h.offset] at htail
  exact htail.le_offset hq

/-- Offsets of regions grow, if none of them is empty. -/
theorem increasing {o : Nat} (h : Tiled o rs) (hpos : ∀ r ∈ rs, 0 < codeSize r.2) :
    ((rs.map Prod.fst).map Symbol.offset).Pairwise (· < ·) := by
  induction rs generalizing o with
  | nil => exact .nil
  | cons r rs ih =>
    obtain ⟨hr, hrs⟩ := List.forall_mem_cons.1 hpos
    refine List.pairwise_cons.2 ⟨?_, ih h.2 hrs⟩
    intro x hx
    simp only [List.map_map, List.mem_map] at hx
    obtain ⟨q, hq, rfl⟩ := hx
    have hle := h.2.le_offset hq
    have hoffset := h.1
    simp only [Function.comp_apply]
    omega

/-- An offset in a region is enclosed by its symbol. -/
theorem enclosing {o x : Nat} (h : Tiled o (pre ++ r :: post)) (hle : r.1.offset ≤ x)
    (hlt : x < r.1.offset + codeSize r.2) :
    ((pre ++ r :: post).map Prod.fst).reverse.find? (fun s => s.offset ≤ x) = some r.1 := by
  have hpost : (post.map Prod.fst).reverse.find? (fun s => s.offset ≤ x) = none := by
    rw [List.find?_eq_none]
    intro s hs
    obtain ⟨q, hq, rfl⟩ := List.mem_map.1 (List.mem_reverse.1 hs)
    have := h.end_le_offset hq
    simp
    omega
  simp [List.find?_append, hpost, hle]

theorem find?_of_mem {o x : Nat} (h : Tiled o rs) (hr : r ∈ rs) (hle : r.1.offset ≤ x)
    (hlt : x < r.1.offset + codeSize r.2) :
    (rs.map Prod.fst).reverse.find? (fun s => s.offset ≤ x) = some r.1 := by
  obtain ⟨pre, post, rfl⟩ := List.append_of_mem hr
  exact h.enclosing hle hlt

/-- The instructions of all regions are those of each. -/
theorem mem_placed_iff {e : Nat × Instruction} {o : Nat} (h : Tiled o rs) :
    e ∈ placed o (rs.flatMap Prod.snd) ↔ ∃ q ∈ rs, e ∈ placed q.1.offset q.2 := by
  induction rs generalizing o with
  | nil => simp [placed]
  | cons r rs ih =>
    rw [List.flatMap_cons, placed_append, List.mem_append, ih h.2, List.exists_mem_cons_iff, h.1]

/-- The instructions that a symbol encloses are those of its region. -/
theorem filter_placed {o : Nat} (h : Tiled o rs) (hr : r ∈ rs) (hpos : 0 < codeSize r.2) :
    (placed o (rs.flatMap Prod.snd)).filter (fun e =>
        (rs.map Prod.fst).reverse.find? (fun s => s.offset ≤ e.1) = some r.1) =
      placed r.1.offset r.2 := by
  obtain ⟨pre, post, rfl⟩ := List.append_of_mem hr
  have hoffset := h.offset
  have hbefore : ∀ e ∈ placed o (pre.flatMap Prod.snd),
      ((pre ++ r :: post).map Prod.fst).reverse.find? (fun s => s.offset ≤ e.1) ≠ some r.1 := by
    intro e he henclosing
    have hlt := (le_of_mem_placed he).2
    have hle := List.find?_some henclosing
    simp at hle
    omega
  have hafter : ∀ e ∈ placed (r.1.offset + codeSize r.2) (post.flatMap Prod.snd),
      ((pre ++ r :: post).map Prod.fst).reverse.find? (fun s => s.offset ≤ e.1) ≠ some r.1 := by
    intro e he henclosing
    have htail := h.right.2
    rw [← hoffset] at htail
    obtain ⟨q, hq, heq⟩ := (mem_placed_iff htail).1 he
    have hle := h.end_le_offset hq
    obtain ⟨before, after, hsplit⟩ := List.append_of_mem (List.mem_cons_of_mem r hq)
    rw [hsplit, ← List.append_assoc] at h henclosing
    rw [h.enclosing (le_of_mem_placed heq).1 (le_of_mem_placed heq).2] at henclosing
    rw [Option.some.inj henclosing] at hle
    omega
  have hwithin : ∀ e ∈ placed r.1.offset r.2,
      ((pre ++ r :: post).map Prod.fst).reverse.find? (fun s => s.offset ≤ e.1) = some r.1 :=
    fun e he => h.enclosing (le_of_mem_placed he).1 (le_of_mem_placed he).2
  rw [List.flatMap_append, List.flatMap_cons, placed_append, placed_append, ← hoffset,
    List.filter_append, List.filter_append,
    List.filter_eq_nil_iff.2 fun e he heq => hbefore e he (of_decide_eq_true heq),
    List.filter_eq_self.2 fun e he => decide_eq_true (hwithin e he),
    List.filter_eq_nil_iff.2 fun e he heq => hafter e he (of_decide_eq_true heq),
    List.nil_append, List.append_nil]

end Tiled

/-! ## Programs of trees -/

namespace Tree.WellTyped
variable {t : Tree} {r : Symbol × List Instruction}

theorem instructions_eq (ht : t.WellTyped) (hfit : t.Fits) :
    t.program.instructions = (placed 0 (t.regions.flatMap Prod.snd)).map .ok := by
  rw [t.program_eq_regions]
  exact instructions_eq_placed _ (ht.encodable_regions hfit.addressable.compact)

theorem listing_eq (ht : t.WellTyped) (hfit : t.Fits) :
    t.program.listing = placed 0 (t.regions.flatMap Prod.snd) := by
  rw [Program.listing, ht.instructions_eq hfit, List.filterMap_map]
  exact List.filterMap_some

theorem region_eq (ht : t.WellTyped) (hfit : t.Fits) (hr : r ∈ t.regions) :
    t.program.region r.1 = placed r.1.offset r.2 := by
  have hfilter := t.tiled_regions.filter_placed hr (ht.codeSize_region_pos hr)
  rw [Program.region, ht.listing_eq hfit]
  simp only [Program.enclosing?]
  rw [t.program_eq_regions]
  exact hfilter

theorem mem_listing_iff (ht : t.WellTyped) (hfit : t.Fits) {e : Nat × Instruction} :
    e ∈ t.program.listing ↔ ∃ r ∈ t.regions, e ∈ t.program.region r.1 := by
  rw [ht.listing_eq hfit, t.tiled_regions.mem_placed_iff]
  constructor
  · rintro ⟨r, hr, he⟩
    exact ⟨r, hr, (ht.region_eq hfit hr).symm ▸ he⟩
  · rintro ⟨r, hr, he⟩
    exact ⟨r, hr, ht.region_eq hfit hr ▸ he⟩

theorem mem_symbols_iff {s : Symbol} : s ∈ t.program.symbols ↔ ∃ r ∈ t.regions, r.1 = s := by
  rw [t.program_eq_regions]
  exact List.mem_map

/-- The region of a function with a body, as the program has it. -/
theorem exists_function (ht : t.WellTyped) (hfit : t.Fits) (hr : r ∈ t.regions) :
    ∃ f ∈ t.userFunctions, r.1.size = f.locals.length * 8 ∧
      t.program.region r.1 = placed r.1.offset (f.code t.functions r.1.offset) ∧
        r.1.offset + codeSize (f.code t.functions r.1.offset) ≤ t.program.code.size := by
  obtain ⟨k, hk⟩ := List.mem_iff_getElem?.1 hr
  obtain ⟨f, hf, heq⟩ := ht.function_of_region hk
  have hcode : r.2 = f.code t.functions r.1.offset := congrArg Prod.snd heq
  have hmem := List.mem_of_getElem? hf
  have hsize : r.1.size = f.frameSize := congrArg (fun r => r.1.size) heq
  refine ⟨f, hmem, hsize.trans (hfit.frameSize hmem), ?_, ?_⟩
  · rw [ht.region_eq hfit hr, hcode]
  · rw [← hcode]
    exact (ht.codeAt_region hfit.addressable.compact hr).2

theorem map_id_symbols (ht : t.WellTyped) :
    t.program.symbols.map Symbol.id = List.range' 1 t.userFunctions.length := by
  have hlen := t.length_regions
  rw [t.program_eq_regions, List.map_map]
  refine List.ext_getElem (by simp [hlen]) ?_
  intro k hk _
  rw [List.length_map] at hk
  obtain ⟨f, -, heq⟩ := ht.function_of_region (List.getElem?_eq_getElem hk)
  simp only [List.getElem_map, Function.comp_apply, List.getElem_range']
  rw [heq]
  simp [Nat.add_comm]

theorem map_size_symbols (ht : t.WellTyped) (hfit : t.Fits) :
    t.program.symbols.map Symbol.size = t.userFunctions.map fun f => f.locals.length * 8 := by
  have hlen := t.length_regions
  rw [t.program_eq_regions, List.map_map]
  refine List.ext_getElem (by simp [hlen]) ?_
  intro k hk hk'
  rw [List.length_map] at hk hk'
  obtain ⟨f, hf, heq⟩ := ht.function_of_region (List.getElem?_eq_getElem hk)
  obtain rfl := Option.some.inj ((List.getElem?_eq_getElem hk').symm.trans hf)
  simp only [List.getElem_map, Function.comp_apply]
  rw [heq]
  exact hfit.frameSize (List.mem_of_getElem? hf)

theorem lookup_eq (ht : t.WellTyped) (id : Nat) :
    t.program.callee? id = t.program.symbol? id := by
  by_cases h : ∃ r ∈ t.regions, r.1.id = id
  · obtain ⟨r, hr, rfl⟩ := h
    obtain ⟨hlast, hfirst⟩ := ht.lookup_region hr
    rw [hlast, hfirst]
  · have hnone : ∀ s ∈ t.program.symbols, ¬ decide (s.id = id) = true := by
      intro s hs hid
      obtain ⟨r, hr, rfl⟩ := mem_symbols_iff.1 hs
      exact h ⟨r, hr, of_decide_eq_true hid⟩
    rw [Program.callee?, Program.symbol?, List.find?_eq_none.2 hnone,
      List.find?_eq_none.2 fun s hs => hnone s (List.mem_reverse.1 hs)]

/-- **The program of a well-typed tree is well formed.** -/
theorem wellFormed (ht : t.WellTyped) (hfit : t.Fits) :
    t.program.WellFormed t.userFunctions.length where
  decodes := by rw [ht.instructions_eq hfit, ht.listing_eq hfit]
  complete := by rw [ht.listing_eq hfit, map_snd_placed, t.size_code]
  ids := ht.map_id_symbols
  first := by
    have htiled := t.tiled_regions
    rw [t.program_eq_regions]
    cases hrs : t.regions with
    | nil => nofun
    | cons r rs =>
      rintro s ⟨⟩
      rw [hrs] at htiled
      exact htiled.1
  increasing := by
    rw [t.program_eq_regions]
    exact t.tiled_regions.increasing fun r hr => ht.codeSize_region_pos hr
  lookup := ht.lookup_eq
  boundary := by
    intro s hs
    obtain ⟨r, hr, rfl⟩ := mem_symbols_iff.1 hs
    have hpos := ht.codeSize_region_pos hr
    rw [ht.region_eq hfit hr]
    cases hcode : r.2 with
    | nil => rw [hcode] at hpos; cases hpos
    | cons i is => exact ⟨i, mem_placed_append r.1.offset [] i is⟩
  covered := by
    intro e he
    obtain ⟨r, hr, her⟩ := (ht.mem_listing_iff hfit).1 he
    exact ⟨r.1, mem_symbols_iff.2 ⟨r, hr, rfl⟩, her⟩
  branch := by
    intro s hs e he hbr
    obtain ⟨r, hr, rfl⟩ := mem_symbols_iff.1 hs
    obtain ⟨f, hf, -, hregion, hend⟩ := ht.exists_function hfit hr
    rw [hregion] at he ⊢
    have hcode := hfit.code
    obtain ⟨pre, j, post, hsplit, htarget, -⟩ := Function.code_branchesTo ht hfit.addressable hf
      (Ty.givenBy_none _) (by omega) (mem_of_mem_placed he) hbr
    rw [hsplit, htarget]
    exact ⟨j, mem_placed_append _ pre j post⟩
  call := by
    intro e he hcall
    obtain ⟨r, hr, her⟩ := (ht.mem_listing_iff hfit).1 he
    obtain ⟨f, hf, -, hregion, -⟩ := ht.exists_function hfit hr
    rw [hregion] at her
    rcases (Function.code_inRange ht hfit.addressable.compact hf _ e.2 (mem_of_mem_placed her)).call hcall with ⟨g, hg⟩ | hn
    · exact .inl ⟨g, Native.ofId?_eq_some_iff.2 hg⟩
    · have hid : e.2.operand.toNat ∈ t.program.symbols.map Symbol.id := by
        rw [ht.map_id_symbols, List.mem_range'_1]
        omega
      exact .inr (List.mem_map.1 hid)
  slot := by
    intro s hs e he hop
    obtain ⟨r, hr, rfl⟩ := mem_symbols_iff.1 hs
    obtain ⟨f, hf, hsize, hregion, -⟩ := ht.exists_function hfit hr
    rw [hregion] at he
    have hslot := (Function.code_inRange ht hfit.addressable.compact hf _ e.2 (mem_of_mem_placed he)).slot hop
    omega
  leaves := by
    intro s hs
    obtain ⟨r, hr, rfl⟩ := mem_symbols_iff.1 hs
    obtain ⟨f, hf, -, hregion, -⟩ := ht.exists_function hfit hr
    rw [hregion, ← List.getLast?_map, map_snd_placed]
    exact Function.code_getLast? ht hf _

end Tree.WellTyped

/-- **What is compiled is well formed**: a program has a symbol for each definition
    of its source, numbered from one in the order of the definitions and with
    eight bytes for each local, and its code makes sense throughout. -/
theorem wellFormed_of_compile {source : String} {p : Program} (h : compile source = .ok p)
    (hfit : (Analysis.ofSource source).tree.Fits) :
    let a := Analysis.ofSource source
    p.WellFormed a.document.definitions.length ∧
      a.tree.userFunctions.map Function.pattern = a.document.definitions.map Definition.pattern ∧
        p.symbols.map Symbol.size = a.tree.userFunctions.map fun f => f.locals.length * 8 := by
  obtain ⟨ht, rfl, hpatterns⟩ := wellTyped_of_compile h
  have hlen := congrArg List.length hpatterns
  rw [List.length_map, List.length_map] at hlen
  exact ⟨hlen ▸ ht.wellFormed hfit, hpatterns, ht.map_size_symbols hfit⟩

/-- A loop around a choice, in front of a function with a parameter. -/
def branchingSource : String :=
  "Offentlig funktion f tilbagegiver heltal. Goddag. Imens g 300. Goddag. Hvis falsk. Goddag. " ++
  "Print 2. Farvel. Ellers. Goddag. Tilbagegiv 1. Farvel. Farvel. Farvel. " ++
  "Offentlig funktion g (X som heltal) tilbagegiver påstand. Goddag. Tilbagegiv falsk. Farvel."

/-- The loop ends at offset 53, the other way through the choice begins at 46, and both go on at 49. -/
def branchingProgram : Program :=
  ⟨[⟨1, 0, 0⟩, ⟨2, 8, 56⟩],
    #[65, 44, 1, 25, 2, 18, 219, 53, 0, 0, 0, 0, 0, 0, 0, 1, 0, 18, 219, 46, 0, 0, 0, 0, 0, 0, 0,
      1, 2, 153, 239, 190, 173, 222, 4, 1, 1, 219, 49, 0, 0, 0, 0, 0, 0, 0, 1, 1, 26, 1, 1, 27, 0,
      1, 0, 26, 3, 0, 1, 0, 26, 1, 0, 26]⟩

theorem wellFormed_branching : compile branchingSource = .ok branchingProgram ∧
    (Analysis.ofSource branchingSource).tree.Fits ∧ branchingProgram.WellFormed 2 ∧
      branchingProgram.symbols.map Symbol.size = [0, 8] := by
  have hanalysis : let a := Analysis.ofSource branchingSource
      a.reports = [] ∧ a.tree.program = branchingProgram ∧ a.document.definitions.length = 2 ∧
        a.tree.userFunctions.map (fun f => f.locals.length) = [0, 1] := by
    decide +kernel
  obtain ⟨hreports, hprogram, hlength, hlocals⟩ := hanalysis
  have hcompile : compile branchingSource = .ok branchingProgram :=
    compile_eq_ok_iff.2 ⟨hreports, hprogram⟩
  have hfit : (Analysis.ofSource branchingSource).tree.Fits :=
    Tree.fits_of_locals hlocals (Nat.lt_of_lt_of_le (by decide : 2 < 3) (by decide)) (by decide)
      (by rw [hprogram]; decide)
  obtain ⟨hwell, -, -⟩ := wellFormed_of_compile hcompile hfit
  rw [hlength] at hwell
  exact ⟨hcompile, hfit, hwell, rfl⟩

end DanishProse

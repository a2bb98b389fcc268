/-
  A tree whose functions have counterparts in another one runs as that one does.

  * `Tree.Embeds ρ t u`: every function of `t` corresponds to the one of `u` at the
    place that `ρ` gives, and the first one with a body to the first one;
  * `Tree.Beside ρ t u`: offsets of the two programs in functions that correspond,
    with as many of their instructions before them;
  * `Machine.Alike`: machines with the same stack and the same output, at places
    beside each other, whose frames differ at most in where they return.  One
    instruction keeps them so (`step_alike`), hence so do all
    (`advance_alike`);
  * `Tree.Embeds.run_eq`: the two programs give the same result, whatever the limit.
-/
import DanishProse.Proofs.LockStep
import DanishProse.Proofs.Points
import DanishProse.Proofs.Recoding
import DanishProse.Proofs.Running

namespace DanishProse

/-! ## Functions that correspond -/

/-- Every function has a counterpart, and the first functions with a body correspond. -/
structure Tree.Embeds (ρ : Nat → Nat) (t u : Tree) : Prop where
  function : ∀ (k : Nat) (f : Function), t.functions[k]? = some f →
    ∃ g, u.functions[ρ k]? = some g ∧ f.Alike ρ g
  first : ∀ f : Function, t.userFunctions.head? = some f →
    ∃ g, u.userFunctions.head? = some g ∧ f.Alike ρ g

/-- The same function outside the program is called, or functions that correspond. -/
def Tree.CalledAlike (ρ : Nat → Nat) (t u : Tree) (n n' : Nat) : Prop :=
  (∃ f : Native, n = f.id ∧ n' = f.id) ∨
    ∃ f ∈ t.userFunctions, ∃ g ∈ u.userFunctions, f.symbol? = some n ∧ g.symbol? = some n' ∧ f.Alike ρ g

/-- Offsets in functions that correspond, with as many instructions before them. -/
def Tree.Beside (ρ : Nat → Nat) (t u : Tree) (x y : Nat) : Prop :=
  ∃ f g o o' pre i post pre' j post', t.StandsAt f o ∧ u.StandsAt g o' ∧ f.Alike ρ g ∧
    f.code t.functions o = pre ++ i :: post ∧ g.code u.functions o' = pre' ++ j :: post' ∧
      pre.length = pre'.length ∧ x = o + codeSize pre ∧ y = o' + codeSize pre'

section
variable {ρ : Nat → Nat} {f g : Function}

theorem Function.Alike.body_eq (h : f.Alike ρ g) : g.body = actionsRenamed ρ f.body := by
  have hrole := h.role
  unfold Function.body
  generalize f.role = r, g.role = s at hrole ⊢
  cases hrole <;> rfl

theorem Function.Alike.locals (h : f.Alike ρ g) : List.Forall₂ Local.Alike f.locals g.locals := by
  have hrole := h.role
  unfold Function.locals
  generalize f.role = r, g.role = s at hrole ⊢
  cases hrole with
  | user _ _ _ hlocals => exact hlocals
  | _ => exact .nil

theorem Function.Alike.frameSize_eq (h : f.Alike ρ g) : g.frameSize = f.frameSize := by
  rw [Function.frameSize, Function.frameSize, h.locals.length_eq]

end

section
variable {ρ : Nat → Nat} {t u : Tree} (he : t.Embeds ρ u) (ht : t.WellTyped) (hu : u.WellTyped)
  (hfit : t.Addressable) (hfit' : u.Addressable)
include he ht hu hfit hfit'

/-- Functions are called as their counterparts are. -/
theorem Tree.Embeds.recodes (targets : Nat → Nat → Prop) :
    Recodes (Instruction.Alike (t.CalledAlike ρ u) targets) ρ t.functions u.functions where
  other _ hcall hbr := .same hcall hbr
  call k f hf := by
    obtain ⟨g, hg, hfg⟩ := he.function k f hf
    refine ⟨g, hg, ?_⟩
    have hmem := List.mem_of_getElem? hf
    have hmem' := List.mem_of_getElem? hg
    have hrole := hfg.role
    cases hfr : f.role <;> cases hgr : g.role <;> rw [hfr, hgr] at hrole <;> cases hrole
    · next op =>
      have hop := OpCode.hasOperand_of_arity? (ht.arity_of_intrinsic hmem hfr)
      refine .cons (.same ?_ ?_) .nil
      · rintro rfl
        cases hop
      · rintro rfl
        cases hop
    · exact .nil
    · next native =>
      refine .cons (.call (.inl ⟨native, ?_, ?_⟩)) .nil
      · exact Instruction.toNat_toUInt64 native.id_lt
      · exact Instruction.toNat_toUInt64 native.id_lt
    · next n locals body n' locals' hlocals =>
      have hn := Function.symbol?_of_role hfr
      have hn' := Function.symbol?_of_role hgr
      have huser : f ∈ t.userFunctions := List.mem_filter.2 ⟨hmem, (Function.isUser_of_symbol? hn).1⟩
      have huser' : g ∈ u.userFunctions := List.mem_filter.2 ⟨hmem', (Function.isUser_of_symbol? hn').1⟩
      obtain ⟨a, rfl, ha⟩ := ht.getElem?_of_symbol? hmem hn
      obtain ⟨b, rfl, hb⟩ := hu.getElem?_of_symbol? hmem' hn'
      have hsmall := hfit.functions
      have hsmall' := hfit'.functions
      have hlt := (List.getElem?_eq_some_iff.1 ha).1
      have hlt' := (List.getElem?_eq_some_iff.1 hb).1
      rw [Native.baseId] at hsmall hsmall'
      refine .cons (.call (.inr ⟨f, huser, g, huser', ?_, ?_, hfg⟩)) .nil
      · rw [Instruction.toNat_toUInt64 (by omega)]
        exact hn
      · rw [Instruction.toNat_toUInt64 (by omega)]
        exact hn'

/-- **Functions that correspond have the same code**, but for their calls, and for branches to
    places beside each other. -/
theorem Tree.Embeds.code_alike {f g : Function} {o o' : Nat} (hf : t.StandsAt f o)
    (hg : u.StandsAt g o') (hfg : f.Alike ρ g) :
    CodeAlike (t.CalledAlike ρ u) (t.Beside ρ u) (f.code t.functions o) (g.code u.functions o') := by
  have hrecodes := he.recodes ht hu hfit hfit'
  have hplain : ∀ i ∈ epilogue f.returnType, i.opcode ≠ .call ∧ i.opcode ≠ .br := by
    rw [epilogue_eq (ht.returnType f hf.mem)]
    decide
  have hstores : ∀ i ∈ prologue f.locals, i.opcode ≠ .call ∧ i.opcode ≠ .br := by
    intro i hi
    obtain ⟨l, -, rfl⟩ := List.mem_map.1 hi
    exact ⟨nofun, nofun⟩
  have hcode := Function.code_of_isUser (t.isUser_userFunctions f hf.mem) t.functions o
  have hcode' := Function.code_of_isUser (u.isUser_userFunctions g hg.mem) u.functions o'
  rw [prologue_alike hfg.locals, hfg.body_eq, hfg.returnType] at hcode'
  have hend := (hf.codeAt ht hfit.compact).2
  have hend' := (hg.codeAt hu hfit'.compact).2
  have hsmall := hfit.code
  have hsmall' := hfit'.code
  rw [hcode, codeSize_append, codeSize_append] at hend
  rw [hcode', codeSize_append, codeSize_append] at hend'
  have hbody := actionsCode_renamed hrecodes (ht.laidOut hf.mem).2 (o + codeSize (prologue f.locals))
    (o' + codeSize (prologue f.locals)) (by omega) (by omega)
  rw [hcode, hcode']
  refine List.rel_append (List.rel_append ((hrecodes _).refl hstores) (hbody.imp fun x y hxy => ?_))
    ((hrecodes _).refl hplain)
  obtain ⟨front, rest, front', rest', hsplit, hsplit', hlen, rfl, rfl⟩ := hxy
  -- a branch to the end of the body still finds an instruction there, of the epilogue
  have hne := epilogue_ne_nil (ht.returnType f hf.mem)
  obtain ⟨i, post, hpost⟩ := List.exists_cons_of_ne_nil (List.append_ne_nil_of_right_ne_nil rest hne)
  obtain ⟨j, post', hpost'⟩ := List.exists_cons_of_ne_nil (List.append_ne_nil_of_right_ne_nil rest' hne)
  refine ⟨f, g, o, o', prologue f.locals ++ front, i, post, prologue f.locals ++ front', j, post', hf, hg,
    hfg, ?_, ?_, by simp [hlen], ?_, ?_⟩
  · rw [hcode, hsplit, ← hpost]
    simp only [List.append_assoc]
  · rw [hcode', hsplit', ← hpost']
    simp only [List.append_assoc]
  · rw [codeSize_append, Nat.add_assoc]
  · rw [codeSize_append, Nat.add_assoc]

/-- **At places beside each other stand instructions that correspond.**  But for a `ret`, the
    places behind them are beside each other too. -/
theorem Tree.Embeds.beside_next {x y : Nat} (h : t.Beside ρ u x y) :
    ∃ i j, Instruction.decode t.program.code x = .ok i ∧ Instruction.decode u.program.code y = .ok j ∧
      Instruction.Alike (t.CalledAlike ρ u) (t.Beside ρ u) i j ∧
        (i.opcode ≠ .ret → t.Beside ρ u (x + i.size) (y + j.size)) := by
  obtain ⟨f, g, o, o', pre, i, post, pre', j, post', hf, hg, hfg, hcode, hcode', hlen, rfl, rfl⟩ := h
  have halike := he.code_alike ht hu hfit hfit' hf hg hfg
  have hat := (hf.codeAt ht hfit.compact).1
  have hat' := (hg.codeAt hu hfit'.compact).1
  have hlast := Function.code_getLast? ht hf.mem o
  have hlength := halike.length_eq
  rw [hcode] at hat hlast hlength
  rw [hcode'] at hat' hlength
  rw [hcode, hcode'] at halike
  have hij := List.forall₂_drop pre.length halike
  rw [List.drop_left, hlen, List.drop_left] at hij
  refine ⟨i, j, ((codeAt_append _ _ _).1 hat).2.1, ((codeAt_append _ _ _).1 hat').2.1, ?_, fun hret => ?_⟩
  · cases hij with
    | cons h _ => exact h
  · cases post with
    | nil =>
      -- the last instruction of a function is its `ret`
      rw [List.getLast?_concat] at hlast
      obtain rfl := Option.some.inj hlast
      exact absurd rfl hret
    | cons k post =>
      cases post' with
      | nil => simp [hlen] at hlength
      | cons k' post' =>
        refine ⟨f, g, o, o', pre ++ [i], k, post, pre' ++ [j], k', post', hf, hg, hfg, by simp [hcode],
          by simp [hcode'], by simp [hlen], ?_, ?_⟩
        · rw [codeSize_append, codeSize, codeSize, Nat.add_zero, Nat.add_assoc]
        · rw [codeSize_append, codeSize, codeSize, Nat.add_zero, Nat.add_assoc]

omit he hfit hfit' in
/-- Functions that correspond begin beside each other. -/
theorem Tree.Beside.entry {f g : Function} {o o' : Nat} (hf : t.StandsAt f o) (hg : u.StandsAt g o')
    (hfg : f.Alike ρ g) : t.Beside ρ u o o' := by
  have hlast := Function.code_getLast? ht hf.mem o
  have hlast' := Function.code_getLast? hu hg.mem o'
  cases hcode : f.code t.functions o with
  | nil => simp [hcode] at hlast
  | cons i is =>
    cases hcode' : g.code u.functions o' with
    | nil => simp [hcode'] at hlast'
    | cons j js => exact ⟨f, g, o, o', [], i, is, [], j, js, hf, hg, hfg, hcode, hcode', rfl, rfl, rfl⟩

end

/-- A call by the number of a function goes to where it stands, with a frame of its size. -/
theorem Tree.WellTyped.callee_of_symbol? {t : Tree} (ht : t.WellTyped) (hfit : t.Addressable)
    {f : Function} {n : Nat} (hf : f ∈ t.userFunctions) (hn : f.symbol? = some n) :
    ∃ s, t.program.callee? n = some s ∧ t.StandsAt f s.offset ∧ s.size = f.frameSize ∧
      Native.ofId? n = none := by
  obtain ⟨k, rfl, hk⟩ := ht.getElem?_of_symbol? (List.mem_filter.1 hf).1 hn
  obtain ⟨o, ho⟩ := ht.region hk
  have hlt := (List.getElem?_eq_some_iff.1 hk).1
  have hsmall := hfit.functions
  exact ⟨_, (ht.lookup_region (List.mem_of_getElem? ho)).1, ⟨k, hk, ho⟩, rfl,
    Native.ofId?_eq_none (by omega)⟩

/-! ## Frames -/

/-- The same frame, but for where it returns. -/
structure Frame.Alike (P : Nat → Nat → Prop) (a b : Frame) : Prop where
  base : b.base = a.base
  size : b.size = a.size
  returnOffset : Option.Rel P a.returnOffset b.returnOffset

/-- The same frames, but for where they return. -/
structure CallStack.Alike (P : Nat → Nat → Prop) (s s' : CallStack) : Prop where
  current : s.current.Alike P s'.current
  outer : List.Forall₂ (Frame.Alike P) s.outer s'.outer
  slots : s'.slots = s.slots

namespace CallStack.Alike
variable {P : Nat → Nat → Prop} {s s' : CallStack}

theorem inFrame_iff (h : s.Alike P s') (slot : Nat) : s'.inFrame slot ↔ s.inFrame slot := by
  rw [inFrame, inFrame, h.current.size]

theorem isFull_eq (h : s.Alike P s') : s'.isFull = s.isFull := by
  rw [isFull, isFull, s.depth_eq, s'.depth_eq, h.outer.length_eq]

theorem load_eq (h : s.Alike P s') (slot : Nat) : s'.load slot = s.load slot := by
  unfold load
  by_cases hin : s.inFrame slot
  · rw [if_pos hin, if_pos ((h.inFrame_iff slot).2 hin), h.current.base, h.slots]
  · rw [if_neg hin, if_neg (mt (h.inFrame_iff slot).1 hin), h.current.size]

theorem store (h : s.Alike P s') (slot : Nat) (value : Cell) :
    Both (CallStack.Alike P) (s.store slot value) (s'.store slot value) := by
  unfold CallStack.store
  by_cases hin : s.inFrame slot
  · rw [if_pos hin, if_pos ((h.inFrame_iff slot).2 hin)]
    refine .ok ⟨h.current, h.outer, ?_⟩
    show s'.slots.setIfInBounds (s'.current.base + slot) value =
      s.slots.setIfInBounds (s.current.base + slot) value
    rw [h.slots, h.current.base]
  · rw [if_neg hin, if_neg (mt (h.inFrame_iff slot).1 hin), h.current.size]
    exact .error _

theorem push (h : s.Alike P s') (size : Nat) {x y : Nat} (hxy : P x y) :
    Both (CallStack.Alike P) (s.push size x) (s'.push size y) := by
  unfold CallStack.push
  rw [h.isFull_eq]
  split_ifs
  · exact .error _
  · refine .ok ⟨⟨?_, rfl, .some hxy⟩, .cons h.current h.outer, ?_⟩
    · exact congrArg Array.size h.slots
    · exact congrArg (· ++ Array.replicate (slotCount size) 0) h.slots

theorem pop (h : s.Alike P s') :
    Option.Rel (fun a b => a.1.Alike P b.1 ∧ a.2.Alike P b.2) s.pop s'.pop := by
  obtain ⟨current, outer, depth, slots, hdepth⟩ := s
  obtain ⟨current', outer', depth', slots', hdepth'⟩ := s'
  obtain ⟨hcurrent, houter, rfl⟩ := h
  dsimp only at hcurrent houter
  cases houter with
  | nil => exact .none
  | cons hcaller houter =>
    refine .some ⟨hcurrent, hcaller, houter, ?_⟩
    show _ = _
    rw [hcurrent.base]

end CallStack.Alike

/-! ## Machines -/

/-- Machines that only differ in their places. -/
structure Machine.Alike (P : Nat → Nat → Prop) (m m' : Machine) : Prop where
  ip : P m.ip m'.ip
  stack : m'.stack = m.stack
  frames : m.frames.Alike P m'.frames
  printed : m'.printed = m.printed

/-- Both go on, or both halt with the same stack and the same output. -/
inductive Effect.Alike (P : Nat → Nat → Prop) : Effect → Effect → Prop
  | next {m m' : Machine} : m.Alike P m' → Effect.Alike P (.next m) (.next m')
  | halt {m m' : Machine} : m'.stack = m.stack → m'.printed = m.printed →
      Effect.Alike P (.halt m) (.halt m')

section
variable {P : Nat → Nat → Prop} {p q : Program} {layout : FrameLayout} {m m' : Machine}

theorem Machine.Alike.related (h : m.Alike P m') : m.Related P (CallStack.Alike P) m' :=
  ⟨h.ip, h.stack, h.frames, h.printed⟩

theorem Effect.Related.alike {e e' : Effect} (h : e.Related P (CallStack.Alike P) e') : e.Alike P e' := by
  cases h with
  | next h => exact .next ⟨h.ip, h.stack, h.frames, h.printed⟩
  | halt hstack hprinted => exact .halt hstack hprinted

/-- Carries out the same instruction in both machines. -/
theorem execute_alike {i : Instruction} (hcall : i.opcode ≠ .call) (hbr : i.opcode ≠ .br)
    (h : m.Alike P m') (hnext : i.opcode ≠ .ret → P (m.ip + i.size) (m'.ip + i.size)) :
    Both (Effect.Alike P) (execute p layout i m) (execute q layout i m') := by
  refine (execute_related hcall hbr h.related ⟨fun _ => ?_, fun _ c _ _ => ?_, fun _ => ?_⟩ hnext).imp
    fun _ _ => Effect.Related.alike
  · rw [h.frames.load_eq]
    exact .same _
  · exact h.frames.store _ c
  · have hpop := h.frames.pop
    generalize m.frames.pop = x, m'.frames.pop = y at hpop ⊢
    cases hpop with
    | none => exact .none
    | some hpopped => exact .some ⟨hpopped.1.returnOffset, hpopped.2⟩

end

/-! ## Runs -/

/-- Both run on, or both have ended with one result. -/
inductive Progress.Alike (P : Nat → Nat → Prop) : Progress → Progress → Prop
  | running {m m' : Machine} : m.Alike P m' → Progress.Alike P (.running m) (.running m')
  | ended (r : RunResult) : Progress.Alike P (.ended r) (.ended r)

section
variable {ρ : Nat → Nat} {t u : Tree} (he : t.Embeds ρ u) (ht : t.WellTyped) (hu : u.WellTyped)
  (hfit : t.Addressable) (hfit' : u.Addressable) (layout : FrameLayout)
include he ht hu hfit hfit'

/-- **One instruction leaves machines alike that were alike**, or stops both with one fault. -/
theorem step_alike {m m' : Machine} (h : m.Alike (t.Beside ρ u) m') :
    Both (Effect.Alike (t.Beside ρ u)) (step t.program layout m) (step u.program layout m') := by
  obtain ⟨i, j, hi, hj, hij, hnext⟩ := he.beside_next ht hu hfit hfit' h.ip
  rw [step_of_decode hi, step_of_decode hj]
  cases hij with
  | same hcall hbr => exact execute_alike hcall hbr h hnext
  | branch htarget =>
    exact (execute_branch_related h.related (hnext nofun) htarget).imp fun _ _ => Effect.Related.alike
  | @call v v' w w' hcalled =>
    have hafter : Machine.Alike (t.Beside ρ u)
        ⟨m.ip + Instruction.size ⟨.call, v, w⟩, m.stack, m.frames, m.printed⟩
        ⟨m'.ip + Instruction.size ⟨.call, v', w'⟩, m'.stack, m'.frames, m'.printed⟩ :=
      ⟨hnext nofun, h.stack, h.frames, h.printed⟩
    rcases hcalled with ⟨f, hv, hv'⟩ | ⟨f, hf, g, hg, hn, hn', hfg⟩
    · exact (callSymbol_native_related hv hv' hafter.related).imp fun _ _ => Effect.Related.alike
    · obtain ⟨s, hs, hstands, hsize, hnone⟩ := ht.callee_of_symbol? hfit hf hn
      obtain ⟨s', hs', hstands', hsize', hnone'⟩ := hu.callee_of_symbol? hfit' hg hn'
      have hentry := Tree.Beside.entry ht hu hstands hstands' hfg
      refine (callSymbol_related hnone hnone' hs hs' hentry hafter.related ?_).imp
        fun _ _ => Effect.Related.alike
      rw [hsize, hsize', hfg.frameSize_eq]
      exact hafter.frames.push _ hafter.ip

/-- **So does any number of instructions.** -/
theorem advance_alike (n : Nat) {m m' : Machine} (h : m.Alike (t.Beside ρ u) m') :
    Progress.Alike (t.Beside ρ u) (advance t.program layout n m) (advance u.program layout n m') := by
  induction n generalizing m m' with
  | zero => exact .running h
  | succ n ih =>
    have hstep := step_alike he ht hu hfit hfit' layout h
    rw [advance, advance, h.printed]
    generalize step t.program layout m = x, step u.program layout m' = y at hstep ⊢
    cases hstep with
    | error fault => exact .ended _
    | ok heffect =>
      cases heffect with
      | next hm => exact ih hm
      | @halt o o' hstack hprinted =>
        have hresult : o'.result = o.result := by
          rw [Machine.result, Machine.result, Machine.output, Machine.output, hstack, hprinted]
        dsimp only
        rw [hresult]
        exact .ended _

end

/-- **The programs give the same result**, however many instructions they may carry out. -/
theorem Tree.Embeds.run_eq {ρ : Nat → Nat} {t u : Tree} (he : t.Embeds ρ u) (ht : t.WellTyped)
    (hu : u.WellTyped) (hfit : t.Fits) (hfit' : u.Fits) (hne : t.userFunctions ≠ [])
    (settings : Settings) : u.program.run settings = t.program.run settings := by
  obtain ⟨f, others, hfirst⟩ := List.exists_cons_of_ne_nil hne
  obtain ⟨g, hg, hfg⟩ := he.first f (by rw [hfirst]; rfl)
  obtain ⟨more, hfirst'⟩ := List.head?_eq_some_iff.1 hg
  have hsize : u.program.entrySize = t.program.entrySize := by
    rw [(ht.first hfit hfirst).1, (hu.first hfit' hfirst').1, hfg.locals.length_eq]
  have hboot : Machine.Alike (t.Beside ρ u) (.boot t.program settings.layout)
      (.boot u.program settings.layout) := by
    rw [Machine.boot, Machine.boot, hsize]
    refine ⟨?_, rfl, ⟨⟨rfl, rfl, .none⟩, .nil, rfl⟩, rfl⟩
    exact Tree.Beside.entry ht hu (ht.standsAt_first hfirst) (hu.standsAt_first hfirst') hfg
  have hrun := advance_alike he ht hu hfit.addressable hfit'.addressable settings.layout settings.steps hboot
  rw [Program.run, Program.run, ht.code_nonempty hfit hfirst, hu.code_nonempty hfit' hfirst']
  generalize advance t.program settings.layout settings.steps (.boot t.program settings.layout) = x,
    advance u.program settings.layout settings.steps (.boot u.program settings.layout) = y at hrun ⊢
  cases hrun with
  | ended r => rfl
  | running hm =>
    simp only [Bool.false_eq_true, if_false, Machine.output, hm.printed]

end DanishProse

/-
  Runs under different layouts of frames.

  * `CallStack.Agrees`: call stacks with as many frames, in which the slots that both have
    hold the same values.  Operations that find their slot in both keep them so;
  * `Machine.LeavesFrame`: the next instruction uses a local outside its frame.  Until
    then any two layouts give the same run, whatever the program (`advance_agrees`), and a
    run that ends there has printed what the other one prints first (`run_agrees`);
  * `Tree.Inside`: before an instruction of a function.  Compiled code stays inside its
    functions, so frames with room for the locals of each have room for every local that is
    used (`Machine.Housed`), and are never left (`FrameLayout.Roomy.not_leavesFrames`);
  * `fixed_frames_agree`: frames of one size against frames of the sizes that are asked for.
-/
import Mathlib.Tactic.Common
import DanishProse.Proofs.LockStep
import DanishProse.Proofs.Points
import DanishProse.Proofs.Recoding
import DanishProse.Proofs.Robustness

namespace DanishProse

/-! ## Frames that agree -/

/-- Frames that return to the same place; the slots that both have hold the same. -/
structure OwnedFrame.Agrees (f g : OwnedFrame) : Prop where
  returnOffset : f.returnOffset = g.returnOffset
  slots : ∀ (slot : Nat) (c d : Cell), f.slots[slot]? = some c → g.slots[slot]? = some d → c = d

theorem OwnedFrame.agrees_fresh (size size' : Nat) (returnOffset : Option Nat) :
    (fresh size returnOffset).Agrees (fresh size' returnOffset) := by
  refine ⟨rfl, fun slot c d hc hd => ?_⟩
  rw [fresh, Vector.getElem?_replicate] at hc hd
  split_ifs at hc hd
  exact (Option.some.inj hc).symm.trans (Option.some.inj hd)

theorem OwnedFrame.Agrees.store {f g : OwnedFrame} (h : f.Agrees g) (slot : Nat) (value : Cell) :
    OwnedFrame.Agrees { f with slots := f.slots.setIfInBounds slot value }
      { g with slots := g.slots.setIfInBounds slot value } := by
  refine ⟨h.returnOffset, fun other c d hc hd => ?_⟩
  rw [Vector.getElem?_setIfInBounds] at hc hd
  by_cases hother : slot = other
  · rw [if_pos hother] at hc hd
    split_ifs at hc hd
    exact (Option.some.inj hc).symm.trans (Option.some.inj hd)
  · rw [if_neg hother] at hc hd
    exact h.slots other c d hc hd

/-- Call stacks whose frames agree, one by one. -/
structure CallStack.Agrees (s s' : CallStack) : Prop where
  tight : s.Tight
  tight' : s'.Tight
  current : s.owned.current.Agrees s'.owned.current
  outer : List.Forall₂ OwnedFrame.Agrees s.owned.outer s'.owned.outer

namespace CallStack
variable {s s' s₁ : CallStack} {slot : Nat}

/-- A local that is there is read from a slot of the frame. -/
theorem load_of_inFrame (h : s.inFrame slot) :
    ∃ c, s.load slot = .ok c ∧ s.owned.current.slots[slot]? = some c := by
  have hlt := (s.inFrame_iff slot).1 h
  refine ⟨s.owned.current.slots[slot], ?_, Vector.getElem?_eq_getElem hlt⟩
  rw [← load_owned]
  exact dif_pos hlt

theorem Tight.owned_of_store (h : s.Tight) {value : Cell} (hstore : s.store slot value = .ok s₁) :
    s₁.owned = { s.owned with current :=
      { s.owned.current with slots := s.owned.current.slots.setIfInBounds slot value } } := by
  have hown := h.store_owned slot value
  rw [hstore, OwnedFrames.store] at hown
  split_ifs at hown
  · exact (Except.ok.inj hown).symm
  · cases hown

theorem Tight.owned_of_pop (h : s.Tight) {frame : Frame} (hpop : s.pop = some (frame, s₁)) :
    s.owned.outer = s₁.owned.current :: s₁.owned.outer := by
  have hown := h.pop_owned
  rw [hpop] at hown
  generalize s.owned = o at hown ⊢
  obtain ⟨current, _ | ⟨caller, outer⟩⟩ := o
  · cases hown
  · have hrest : (⟨caller, outer⟩ : OwnedFrames) = s₁.owned := congrArg Prod.snd (Option.some.inj hown)
    rw [← hrest]

theorem agrees_entry (size size' : Nat) : (entry size).Agrees (entry size') where
  tight := tight_entry size
  tight' := tight_entry size'
  current := by
    rw [owned_entry, owned_entry]
    exact OwnedFrame.agrees_fresh size size' none
  outer := .nil

namespace Agrees
variable (h : s.Agrees s')
include h

theorem load (hin : s.inFrame slot) (hin' : s'.inFrame slot) : Both Eq (s.load slot) (s'.load slot) := by
  obtain ⟨c, hload, hc⟩ := load_of_inFrame hin
  obtain ⟨d, hload', hd⟩ := load_of_inFrame hin'
  rw [hload, hload']
  exact .ok (h.current.slots slot c d hc hd)

theorem store (hin : s.inFrame slot) (hin' : s'.inFrame slot) (value : Cell) :
    Both CallStack.Agrees (s.store slot value) (s'.store slot value) := by
  obtain ⟨s₁, hstore⟩ : ∃ s₁, s.store slot value = .ok s₁ := ⟨_, if_pos hin⟩
  obtain ⟨s₁', hstore'⟩ : ∃ s₁', s'.store slot value = .ok s₁' := ⟨_, if_pos hin'⟩
  rw [hstore, hstore']
  refine .ok ⟨h.tight.store hstore, h.tight'.store hstore', ?_, ?_⟩
  · rw [h.tight.owned_of_store hstore, h.tight'.owned_of_store hstore']
    exact h.current.store slot value
  · rw [h.tight.owned_of_store hstore, h.tight'.owned_of_store hstore']
    exact h.outer

theorem depth_eq : s'.depth = s.depth := by
  rw [← depth_owned, ← depth_owned, OwnedFrames.depth, OwnedFrames.depth, h.outer.length_eq]

theorem push (size size' returnOffset : Nat) :
    Both CallStack.Agrees (s.push size returnOffset) (s'.push size' returnOffset) := by
  by_cases hfull : s.isFull = true
  · have hfull' : s'.isFull = true := by rwa [isFull, h.depth_eq]
    rw [CallStack.push, CallStack.push, if_pos hfull, if_pos hfull']
    exact .error _
  · have hfull' : ¬ s'.isFull = true := by rwa [isFull, h.depth_eq]
    obtain ⟨s₁, hpush⟩ : ∃ s₁, s.push size returnOffset = .ok s₁ := ⟨_, if_neg hfull⟩
    obtain ⟨s₁', hpush'⟩ : ∃ s₁', s'.push size' returnOffset = .ok s₁' := ⟨_, if_neg hfull'⟩
    rw [hpush, hpush']
    refine .ok ⟨h.tight.push hpush, h.tight'.push hpush', ?_, ?_⟩
    · rw [h.tight.owned_of_push hpush, h.tight'.owned_of_push hpush']
      exact OwnedFrame.agrees_fresh size size' (some returnOffset)
    · rw [h.tight.owned_of_push hpush, h.tight'.owned_of_push hpush']
      exact .cons h.current h.outer

theorem pop : Option.Rel (fun a b => Option.Rel Eq a.1.returnOffset b.1.returnOffset ∧ a.2.Agrees b.2)
    s.pop s'.pop := by
  have hnone : s.pop = none ↔ s'.pop = none := by rw [pop_eq_none_iff, pop_eq_none_iff, h.depth_eq]
  cases hpop : s.pop with
  | none =>
    rw [hnone.1 hpop]
    exact .none
  | some popped =>
    cases hpop' : s'.pop with
    | none => cases hpop.symm.trans (hnone.2 hpop')
    | some popped' =>
      have houter := h.outer
      rw [h.tight.owned_of_pop hpop, h.tight'.owned_of_pop hpop'] at houter
      obtain ⟨hcurrent, houter⟩ := List.forall₂_cons.1 houter
      refine .some ⟨?_, h.tight.pop hpop, h.tight'.pop hpop', hcurrent, houter⟩
      have hreturn : s.current.returnOffset = s'.current.returnOffset := h.current.returnOffset
      rw [(pop_eq_some hpop).1, (pop_eq_some hpop').1, hreturn]
      cases s'.current.returnOffset with
      | none => exact .none
      | some x => exact .some rfl

end Agrees

end CallStack

/-! ## Steps -/

/-- The next instruction uses a local that lies outside the frame. -/
def Machine.LeavesFrame (p : Program) (m : Machine) : Prop :=
  ∃ i, Instruction.decode p.code m.ip = .ok i ∧
    (i.opcode = .ldl ∨ i.opcode = .stl ∧ m.stack.cells ≠ []) ∧ ¬ m.frames.inFrame i.operand.toNat

section
variable {p : Program} {m m' : Machine}

/-- A machine does not get past an instruction that leaves the frame. -/
theorem Machine.LeavesFrame.step_eq (h : m.LeavesFrame p) (layout : FrameLayout) :
    ∃ slot, step p layout m = .error (.localOutOfFrame slot m.frames.current.size) := by
  obtain ⟨i, hi, hop, hslot⟩ := h
  refine ⟨i.operand.toNat, ?_⟩
  rw [step_of_decode hi]
  obtain ⟨op, v, w⟩ := i
  obtain ⟨ip, stack, frames, printed⟩ := m
  rcases hop with hop | ⟨hop, hcells⟩ <;> change op = _ at hop <;> subst hop <;> simp only [execute]
  · rw [CallStack.load, if_neg hslot]
    rfl
  · obtain ⟨c, cells, hcells⟩ := List.exists_cons_of_ne_nil hcells
    rw [(Stack.pop_eq_ok_iff (c := c) (t := .ofCells cells)).2 hcells]
    simp only [bind, Except.bind]
    rw [CallStack.store, if_neg hslot]

/-- **Layouts make no difference to a step**, unless it leaves the frame in one of them. -/
theorem step_agrees (layout layout' : FrameLayout) (h : m.Related Eq CallStack.Agrees m')
    (hin : ¬ m.LeavesFrame p) (hin' : ¬ m'.LeavesFrame p) :
    Both (Effect.Related Eq CallStack.Agrees) (step p layout m) (step p layout' m') := by
  unfold Machine.LeavesFrame at hin hin'
  rw [← h.ip, h.stack] at hin'
  unfold step
  rw [← h.ip]
  cases hi : Instruction.decode p.code m.ip with
  | error e => exact .error _
  | ok i =>
    simp only [hi, Except.ok.injEq, exists_eq_left', not_and, not_not] at hin hin'
    dsimp only
    obtain ⟨op, v, w⟩ := i
    by_cases hcall : op = .call
    · subst hcall
      have hafter : Machine.Related Eq CallStack.Agrees
          ⟨m.ip + Instruction.size ⟨.call, v, w⟩, m.stack, m.frames, m.printed⟩
          ⟨m'.ip + Instruction.size ⟨.call, v, w⟩, m'.stack, m'.frames, m'.printed⟩ :=
        ⟨congrArg (· + _) h.ip, h.stack, h.frames, h.printed⟩
      cases hnative : Native.ofId? v.toNat with
      | some f =>
        have hv := Native.ofId?_eq_some_iff.1 hnative
        exact callSymbol_native_related hv hv hafter
      | none =>
        cases hs : p.callee? v.toNat with
        | some s =>
          refine callSymbol_related hnative hnative hs hs rfl hafter ?_
          rw [← hafter.ip]
          exact h.frames.push _ _ _
        | none =>
          have hunresolved (layout : FrameLayout) (m : Machine) :
              execute p layout ⟨.call, v, w⟩ m = .error (.unresolvedSymbol v) := by
            simp only [execute, callSymbol, hnative, hs]
          rw [hunresolved, hunresolved]
          exact .error _
    · by_cases hbr : op = .br
      · subst hbr
        exact execute_branch_related h (congrArg (· + _) h.ip) rfl
      · refine execute_related hcall hbr h ⟨fun hop => ?_, fun hop c rest hcells => ?_, fun _ => h.frames.pop⟩
          fun _ => congrArg (· + _) h.ip
        · exact h.frames.load (hin (.inl hop)) (hin' (.inl hop))
        · have hne : m.stack.cells ≠ [] := hcells ▸ List.cons_ne_nil c rest
          exact h.frames.store (hin (.inr ⟨hop, hne⟩)) (hin' (.inr ⟨hop, hne⟩)) c

end

/-! ## Runs -/

/-- The result of a run that may not go on. -/
def Progress.result (limit : Nat) : Progress → RunResult
  | .running m => ⟨m.output, some (.stepLimit limit)⟩
  | .ended r => r

section
variable {p : Program} {layout layout' : FrameLayout} {m m' : Machine}

theorem Program.run_eq_result (hcode : p.code.isEmpty = false) (settings : Settings) :
    p.run settings =
      (advance p settings.layout settings.steps (.boot p settings.layout)).result settings.steps := by
  rw [run, hcode]
  simp only [Bool.false_eq_true, if_false]
  cases advance p settings.layout settings.steps (.boot p settings.layout) <;> rfl

theorem Machine.output_eq_of_suffix (h : m.printed <:+ m'.printed) :
    ∃ rest, m'.output = m.output ++ rest := by
  obtain ⟨more, hmore⟩ := h
  refine ⟨String.join more.reverse, ?_⟩
  rw [output, output, ← hmore, List.reverse_append, String.join_append]

/-- **What has been printed stays printed.** -/
theorem output_of_advance (limit n : Nat) (m : Machine) :
    ∃ rest, ((advance p layout n m).result limit).output = m.output ++ rest := by
  induction n generalizing m with
  | zero => exact ⟨"", (String.append_empty).symm⟩
  | succ n ih =>
    rw [advance]
    cases hstep : step p layout m with
    | error fault => exact ⟨"", (String.append_empty).symm⟩
    | ok e =>
      obtain ⟨i, -, hexecute⟩ := exists_execute_of_step hstep
      obtain ⟨more, hmore⟩ := Machine.output_eq_of_suffix (execute_leaves hexecute).printed
      cases e with
      | next m₁ =>
        obtain ⟨rest, hrest⟩ := ih m₁
        refine ⟨more ++ rest, ?_⟩
        rw [← String.append_assoc, ← hmore]
        exact hrest
      | halt m₁ =>
        refine ⟨more ++ stackRemark m₁.stack, ?_⟩
        rw [← String.append_assoc, ← hmore]
        rfl

/-- **Layouts make no difference to a run**, until an instruction leaves the frame in one of
    them. -/
theorem advance_agrees (layout layout' : FrameLayout) (limit n : Nat) (h : m.Related Eq CallStack.Agrees m') :
    (advance p layout n m).result limit = (advance p layout' n m').result limit ∨
      ∃ k o o', k < n ∧ advance p layout k m = .running o ∧ advance p layout' k m' = .running o' ∧
        o.Related Eq CallStack.Agrees o' ∧ (o.LeavesFrame p ∨ o'.LeavesFrame p) := by
  induction n generalizing m m' with
  | zero =>
    refine .inl ?_
    rw [advance, advance, Progress.result, Progress.result, Machine.output, Machine.output, h.printed]
  | succ n ih =>
    by_cases hleave : m.LeavesFrame p ∨ m'.LeavesFrame p
    · exact .inr ⟨0, m, m', Nat.succ_pos n, rfl, rfl, h, hleave⟩
    · have hstep := step_agrees layout layout' h (fun hl => hleave (.inl hl))
        fun hl => hleave (.inr hl)
      simp only [advance]
      generalize hx : step p layout m = x, hy : step p layout' m' = y at hstep
      cases hstep with
      | error fault => exact .inl (by rw [h.printed])
      | ok heffect =>
        cases heffect with
        | next hm =>
          rcases ih hm with heq | ⟨k, o, o', hk, ho, ho', hrelated, hleave⟩
          · exact .inl heq
          · refine .inr ⟨k + 1, o, o', Nat.succ_lt_succ hk, ?_, ?_, hrelated, hleave⟩
            · rw [advance, hx]
              exact ho
            · rw [advance, hy]
              exact ho'
        | halt hstack hprinted =>
          refine .inl ?_
          simp only [Progress.result, Machine.result, Machine.output, hstack, hprinted]

/-- A run ends at an instruction that leaves the frame. -/
theorem Machine.LeavesFrame.ended {k n : Nat} {o : Machine} (h : o.LeavesFrame p) (hk : k < n)
    (ho : advance p layout k m = .running o) : ∃ slot, advance p layout n m =
      .ended ⟨o.output, some (.localOutOfFrame slot o.frames.current.size)⟩ := by
  obtain ⟨slot, hstep⟩ := h.step_eq layout
  exact ⟨slot, advance_ended_of_le (advance_stopped ho hstep) hk⟩

/-- The output of a run begins with what has been printed on the way. -/
theorem output_of_advance_running {k n : Nat} {o : Machine} (ho : advance p layout k m = .running o)
    (hk : k ≤ n) (limit : Nat) :
    ∃ rest, ((advance p layout n m).result limit).output = o.output ++ rest := by
  obtain ⟨j, rfl⟩ := Nat.exists_eq_add_of_le hk
  rw [advance_add, ho]
  exact output_of_advance limit j o

theorem Machine.related_boot (p : Program) (layout layout' : FrameLayout) :
    (boot p layout).Related Eq CallStack.Agrees (boot p layout') :=
  ⟨rfl, rfl, CallStack.agrees_entry _ _, rfl⟩

/-- A run under a layout comes to an instruction that leaves its frame. -/
def Program.LeavesFrames (p : Program) (layout : FrameLayout) : Prop :=
  ∃ n m, advance p layout n (.boot p layout) = .running m ∧ m.LeavesFrame p

/-- **Two layouts give the same result**, if no frame is left under the second one; or else the
    run under the first one ends where it leaves a frame, and the other one goes on. -/
theorem run_agrees (layout : FrameLayout) (hin : ¬ p.LeavesFrames layout') (limit : Option Nat) :
    let r := p.run ⟨layout, limit⟩
    let r' := p.run ⟨layout', limit⟩
    r = r' ∨ p.LeavesFrames layout ∧ ∃ slot size rest,
      r.fault = some (.localOutOfFrame slot size) ∧ r'.output = r.output ++ rest := by
  intro r r'
  cases hempty : p.code.isEmpty with
  | true =>
    refine .inl ?_
    simp only [r, r', Program.run, hempty, if_true]
  | false =>
    have hr : r = _ := Program.run_eq_result hempty ⟨layout, limit⟩
    have hr' : r' = _ := Program.run_eq_result hempty ⟨layout', limit⟩
    have hagrees := advance_agrees (p := p) layout layout' (limit.getD patience) (limit.getD patience)
      (Machine.related_boot p layout layout')
    rcases hagrees with heq | ⟨k, o, o', hk, ho, ho', hrelated, hleave | hleave⟩
    · exact .inl (hr.trans (heq.trans hr'.symm))
    · obtain ⟨slot, hended⟩ := hleave.ended hk ho
      obtain ⟨rest, hrest⟩ := output_of_advance_running ho' (Nat.le_of_lt hk) (limit.getD patience)
      have hfault : r = ⟨o.output, some (.localOutOfFrame slot o.frames.current.size)⟩ :=
        hr.trans (congrArg (Progress.result _) hended)
      have houtput : o'.output = o.output := by rw [Machine.output, Machine.output, hrelated.printed]
      refine .inr ⟨⟨k, o, ho, hleave⟩, slot, o.frames.current.size, rest, by rw [hfault], ?_⟩
      rw [hfault, hr', ← houtput]
      exact hrest
    · exact absurd ⟨k, o', ho', hleave⟩ hin

end

/-! ## Compiled code -/

/-- Before an instruction of a function. -/
def Tree.Inside (t : Tree) (x : Nat) (f : Function) : Prop :=
  ∃ o pre i post, t.StandsAt f o ∧ f.code t.functions o = pre ++ i :: post ∧ x = o + codeSize pre

section
variable {t : Tree} {f : Function} {locals : List Local}

/-- A tree is compact if its code and its locals are: each function has some code. -/
theorem Tree.WellTyped.compact (ht : t.WellTyped)
    (hlocals : ∀ f ∈ t.userFunctions, f.locals.length < 2 ^ 64) (hcode : t.program.code.size < 2 ^ 64) :
    t.Compact := by
  refine ⟨Nat.lt_of_le_of_lt ?_ hcode, hlocals, hcode⟩
  rw [← t.length_regions, t.size_code]
  have hpos : ∀ r ∈ t.regions, 0 < codeSize r.2 := fun r => ht.codeSize_region_pos
  generalize t.regions = rs at hpos
  induction rs with
  | nil => exact Nat.zero_le _
  | cons r rs ih =>
    obtain ⟨hr, hrs⟩ := List.forall_mem_cons.1 hpos
    have hle := ih hrs
    rw [List.flatMap_cons, codeSize_append, List.length_cons]
    omega

/-- Branches of actions go to places before or behind their instructions. -/
theorem Tree.WellTyped.actionsCode_jumps (ht : t.WellTyped) (hfit : t.Compact) {as : List Action}
    (h : ActionsWellTyped t.functions locals as) {start : Nat}
    (hend : start + codeSize (actionsCode t.functions start as) < 2 ^ 64) {i : Instruction}
    (hi : i ∈ actionsCode t.functions start as) (hbr : i.opcode = .br) :
    ∃ pre post, actionsCode t.functions start as = pre ++ post ∧ i.operand.toNat = start + codeSize pre := by
  -- the code is that of the same actions at the same place, so its branches stay in their places
  have hrecodes (targets : Nat → Nat → Prop) :
      Recodes (Instruction.Alike (fun _ _ => True) targets) id t.functions t.functions := by
    refine ⟨fun _ => .same, fun k f hf => ⟨f, hf, List.forall₂_same.2 fun i hi => ?_⟩⟩
    have hstraight := (ht.invocation_straight hfit (List.mem_of_getElem? hf) 0 i hi).2
    obtain ⟨op, v, w⟩ := i
    by_cases hcall : op = .call
    · subst hcall
      exact .call trivial
    · exact .same hcall hstraight
  have halike := actionsCode_renamed hrecodes h start start hend (by rwa [actionsRenamed_id])
  rw [actionsRenamed_id] at halike
  cases List.forall₂_same.1 halike i hi with
  | same _ hne => exact absurd hbr hne
  | call => cases hbr
  | branch htarget =>
    obtain ⟨pre, post, -, -, hsplit, -, -, hx, -⟩ := htarget
    exact ⟨pre, post, hsplit, hx⟩

/-- **A branch of a function goes to an instruction of the function.** -/
theorem Tree.WellTyped.code_jumps (ht : t.WellTyped) (hfit : t.Compact) (hf : f ∈ t.userFunctions)
    {o : Nat} (hend : o + codeSize (f.code t.functions o) < 2 ^ 64) {i : Instruction}
    (hi : i ∈ f.code t.functions o) (hbr : i.opcode = .br) :
    ∃ pre j post, f.code t.functions o = pre ++ j :: post ∧ i.operand.toNat = o + codeSize pre := by
  obtain ⟨hlaid, hbody⟩ := ht.laidOut hf
  have hreturn := ht.returnType f hf
  have hcode := Function.code_of_isUser (t.isUser_userFunctions f hf) t.functions o
  rw [hcode, codeSize_append, codeSize_append] at hend
  rw [hcode, List.mem_append, List.mem_append] at hi
  rcases hi with (hi | hi) | hi
  · exact absurd hbr (prologue_straight hlaid.placed (hfit.locals f hf) 0 i hi).2
  · obtain ⟨pre, post, hsplit, hx⟩ := ht.actionsCode_jumps hfit hbody (by omega) hi hbr
    -- a branch to the end of the body still finds an instruction there, of the epilogue
    obtain ⟨j, rest, hrest⟩ := List.exists_cons_of_ne_nil
      (List.append_ne_nil_of_right_ne_nil post (epilogue_ne_nil hreturn))
    refine ⟨prologue f.locals ++ pre, j, rest, ?_, ?_⟩
    · rw [hcode, hsplit, ← hrest]
      simp only [List.append_assoc]
    · rw [hx, codeSize_append, Nat.add_assoc]
  · exact absurd hbr (epilogue_straight hreturn 0 0 i hi).2

/-- A function begins inside itself. -/
theorem Tree.StandsAt.inside {o : Nat} (ht : t.WellTyped) (h : t.StandsAt f o) : t.Inside o f := by
  obtain ⟨_, pre, i, post, hstands, hcode, hx, -⟩ := h.entry ht
  exact ⟨_, pre, i, post, hstands, hcode, hx⟩

/-- **Inside a function there is an instruction that stays inside**, but for a `ret`. -/
theorem Tree.Inside.next {x : Nat} (ht : t.WellTyped) (hfit : t.Compact) (h : t.Inside x f) :
    ∃ i, Instruction.decode t.program.code x = .ok i ∧ i.InRange t.userFunctions.length f.locals.length ∧
      (i.opcode ≠ .ret → t.Inside (x + i.size) f) ∧ (i.opcode = .br → t.Inside i.operand.toNat f) := by
  obtain ⟨o, pre, i, post, hf, hcode, rfl⟩ := h
  have hmem := hf.mem
  obtain ⟨hat, hend⟩ := hf.codeAt ht hfit
  have hi : i ∈ f.code t.functions o := by simp [hcode]
  refine ⟨i, ?_, Function.code_inRange ht hfit hmem o i hi, fun hret => ?_, fun hbr => ?_⟩
  · rw [hcode] at hat
    exact ((codeAt_append _ _ _).1 hat).2.1
  · cases post with
    | nil =>
      have hlast := Function.code_getLast? ht hmem o
      rw [hcode, List.getLast?_concat] at hlast
      obtain rfl := Option.some.inj hlast
      exact absurd rfl hret
    | cons j post =>
      refine ⟨o, pre ++ [i], j, post, hf, by simp [hcode], ?_⟩
      rw [codeSize_append, codeSize, codeSize, Nat.add_zero, Nat.add_assoc]
  · have hsmall := hfit.code
    obtain ⟨pre', j, post', hcode', htarget⟩ := ht.code_jumps hfit hmem (by omega) hi hbr
    exact ⟨o, pre', j, post', hf, hcode', htarget⟩

/-- A symbol is that of a function that stands where it says. -/
theorem Tree.WellTyped.function_of_symbol (ht : t.WellTyped) {s : Symbol} (hs : s ∈ t.program.symbols) :
    ∃ f, t.StandsAt f s.offset ∧ s.size = f.frameSize := by
  rw [t.program_eq_regions] at hs
  obtain ⟨r, hr, rfl⟩ := List.mem_map.1 hs
  obtain ⟨k, hk⟩ := List.mem_iff_getElem?.1 hr
  obtain ⟨f, hf, heq⟩ := ht.function_of_region hk
  exact ⟨f, ⟨k, hf, heq ▸ hk⟩, congrArg (fun r => r.1.size) heq⟩

theorem Tree.userFunctions_ne_nil (h : t.program.code.isEmpty = false) :
    t.userFunctions ≠ [] := by
  intro hnil
  rw [t.program_eq_regions, Tree.regions, hnil] at h
  cases h

end

/-! ## Room for locals -/

/-- A layout gives each function as much room as its symbol asks for. -/
def FrameLayout.Roomy (layout : FrameLayout) (p : Program) : Prop :=
  ∀ s ∈ p.symbols, s.size ≤ layout.room s.size

/-- A frame has room for all locals of the function that an offset is inside. -/
def Frame.Houses (t : Tree) (x : Nat) (frame : Frame) : Prop :=
  ∃ f, t.Inside x f ∧ f.locals.length * 8 ≤ frame.size

/-- The frames of a machine have room for all locals, here and where they return. -/
structure Machine.Housed (t : Tree) (m : Machine) : Prop where
  current : m.frames.current.Houses t m.ip
  outer : List.IsChain (fun frame caller => ∀ x, frame.returnOffset = some x → caller.Houses t x)
    (m.frames.current :: m.frames.outer)

section
variable {t : Tree} {layout : FrameLayout} {m m' : Machine} (ht : t.WellTyped) (hfit : t.Compact)
  (hlocals : ∀ f ∈ t.userFunctions, f.locals.length < 2 ^ 29)
include ht hlocals

/-- The frame of a symbol houses the function that stands there. -/
theorem FrameLayout.Roomy.houses (hroomy : layout.Roomy t.program) {s : Symbol}
    (hs : s ∈ t.program.symbols) (base : Nat) (returnOffset : Option Nat) :
    Frame.Houses t s.offset ⟨base, layout.room s.size, returnOffset⟩ := by
  obtain ⟨f, hf, hsize⟩ := ht.function_of_symbol hs
  refine ⟨f, hf.inside ht, ?_⟩
  rw [← Function.frameSize_eq (hlocals f hf.mem), ← hsize]
  exact hroomy s hs

/-- A machine begins with room for the locals of its first function. -/
theorem Machine.housed_boot (hroomy : layout.Roomy t.program) (hne : t.userFunctions ≠ []) :
    (boot t.program layout).Housed t := by
  obtain ⟨f, others, hfirst⟩ := List.exists_cons_of_ne_nil hne
  obtain ⟨rs, hrs⟩ := List.head?_eq_some_iff.1 (ht.region_first hfirst)
  have hsymbols : t.program.symbols = ⟨1, f.frameSize, 0⟩ :: rs.map Prod.fst := by
    rw [t.program_eq_regions, hrs]
    rfl
  have hentry : t.program.entrySize = f.frameSize := by
    rw [Program.entrySize, hsymbols]
    rfl
  have hmem : ⟨1, f.frameSize, 0⟩ ∈ t.program.symbols := hsymbols ▸ List.mem_cons_self
  refine ⟨?_, .singleton _⟩
  rw [boot, hentry]
  exact hroomy.houses ht hlocals hmem 0 none

include hfit

/-- **A step of a machine with room for all locals leaves room for all locals.** -/
theorem Machine.Housed.step (hroomy : layout.Roomy t.program) (h : m.Housed t)
    (hstep : DanishProse.step t.program layout m = .ok (.next m')) : m'.Housed t := by
  obtain ⟨⟨f, hin, hsize⟩, hchain⟩ := h
  obtain ⟨i, hi, -, hnext, hjump⟩ := hin.next ht hfit
  rw [step_of_decode hi] at hstep
  have hmoves := (execute_leaves hstep).moves
  cases hmoves with
  | next hret hip hframes =>
    rw [← hframes] at hsize hchain
    exact ⟨⟨f, hip ▸ hnext hret, hsize⟩, hchain⟩
  | branch hbr hip hframes =>
    rw [← hframes] at hsize hchain
    exact ⟨⟨f, hip ▸ hjump hbr, hsize⟩, hchain⟩
  | store hstl hip hstore =>
    obtain ⟨-, hcurrent, houter, -⟩ := CallStack.store_eq_ok hstore
    rw [← hcurrent] at hsize hchain
    rw [← houter] at hchain
    exact ⟨⟨f, hip ▸ hnext (hstl ▸ by decide), hsize⟩, hchain⟩
  | @call _ s hcall hs hip hpush =>
    obtain ⟨hcurrent, houter, -⟩ := CallStack.push_eq_ok hpush
    have hmem : s ∈ t.program.symbols := List.mem_reverse.1 (List.mem_of_find?_eq_some hs)
    refine ⟨?_, ?_⟩
    · rw [hcurrent, hip]
      exact hroomy.houses ht hlocals hmem _ _
    · rw [hcurrent, houter, List.isChain_cons_cons]
      refine ⟨fun x hx => ?_, hchain⟩
      obtain rfl := Option.some.inj hx
      exact ⟨f, hnext (hcall ▸ by decide), hsize⟩
  | @ret _ frame hret hpop hoffset =>
    obtain ⟨rfl, houter, -⟩ := CallStack.pop_eq_some hpop
    rw [houter, List.isChain_cons_cons] at hchain
    exact ⟨hchain.1 _ hoffset, hchain.2⟩

/-- So does any number of them. -/
theorem Machine.Housed.advance (hroomy : layout.Roomy t.program) {n : Nat} (h : m.Housed t)
    (hrun : advance t.program layout n m = .running m') : m'.Housed t :=
  advance_keeps (fun _ _ h => h.step ht hfit hlocals hroomy) h hrun

omit hlocals in
/-- With room for all locals, no instruction leaves the frame. -/
theorem Machine.Housed.not_leavesFrame (h : m.Housed t) : ¬ m.LeavesFrame t.program := by
  rintro ⟨i, hi, hop, hout⟩
  obtain ⟨f, hin, hsize⟩ := h.current
  obtain ⟨j, hj, hrange, -⟩ := hin.next ht hfit
  obtain rfl := Except.ok.inj (hj.symm.trans hi)
  have hslot := hrange.slot (hop.imp_right And.left)
  refine hout ?_
  unfold CallStack.inFrame
  omega

/-- **Under a layout with enough room, compiled code never leaves a frame.** -/
theorem FrameLayout.Roomy.not_leavesFrames (hroomy : layout.Roomy t.program) :
    ¬ t.program.LeavesFrames layout := by
  rintro ⟨n, m, hrun, hleave⟩
  obtain ⟨i, hi, -⟩ := id hleave
  have hne := Tree.userFunctions_ne_nil (Instruction.isEmpty_of_decode hi)
  have hboot := Machine.housed_boot ht hlocals hroomy hne
  exact (hboot.advance ht hfit hlocals hroomy hrun).not_leavesFrame ht hfit hleave

end

/-- **Fixed frames agree with frames of the sizes that functions ask for.**  If they are large
    enough, runs are the same; if not, a run may also end at a local outside its frame, and
    has printed until then what the other run prints. -/
theorem fixed_frames_agree {source : String} {p : Program} (h : compile source = .ok p)
    (hlocals : ∀ f ∈ (Analysis.ofSource source).tree.userFunctions, f.locals.length < 2 ^ 29)
    (hcode : p.code.size < 2 ^ 64) (n : Nat) (limit : Option Nat) :
    let fixed := p.run ⟨.fixed n, limit⟩
    let derived := p.run ⟨.derived, limit⟩
    ((∀ s ∈ p.symbols, s.size ≤ n) → fixed = derived) ∧
      (fixed = derived ∨ ∃ slot size rest, fixed.fault = some (.localOutOfFrame slot size) ∧
        derived.output = fixed.output ++ rest) := by
  obtain ⟨ht, rfl, -⟩ := wellTyped_of_compile h
  have hfit := ht.compact (fun f hf => Nat.lt_trans (hlocals f hf) (by decide)) hcode
  have hderived : FrameLayout.derived.Roomy (Analysis.ofSource source).tree.program :=
    fun s _ => Nat.le_refl s.size
  have hruns := run_agrees (.fixed n) (hderived.not_leavesFrames ht hfit hlocals) limit
  refine ⟨fun hsizes => ?_, hruns.imp_right And.right⟩
  have hfixed : (FrameLayout.fixed n).Roomy (Analysis.ofSource source).tree.program := hsizes
  exact hruns.resolve_right fun hleaves => hfixed.not_leavesFrames ht hfit hlocals hleaves.1

/-- Eight slots are enough for the sample; without slots, its second function cannot store its
    parameter. -/
theorem fixed_frames_sample :
    sampleProgram.run ⟨.fixed 64, some 9⟩ = sampleProgram.run ⟨.derived, some 9⟩ ∧
      ∃ slot size rest, (sampleProgram.run ⟨.fixed 0, some 9⟩).fault = some (.localOutOfFrame slot size) ∧
        (sampleProgram.run ⟨.derived, some 9⟩).output =
          (sampleProgram.run ⟨.fixed 0, some 9⟩).output ++ rest := by
  have hcode : sampleProgram.code.size < 2 ^ 64 := by decide
  have hlarge := fixed_frames_agree compile_sample fits_sample.locals hcode 64 (some 9)
  have hsmall := fixed_frames_agree compile_sample fits_sample.locals hcode 0 (some 9)
  refine ⟨hlarge.1 (by decide), hsmall.2.resolve_left ?_⟩
  have hfixed : sampleProgram.run ⟨.fixed 0, some 9⟩ = ⟨"", some (.localOutOfFrame 0 0)⟩ := rfl
  have hderived : sampleProgram.run ⟨.derived, some 9⟩ = ⟨"2\n", none⟩ := rfl
  rw [hfixed, hderived]
  decide

end DanishProse

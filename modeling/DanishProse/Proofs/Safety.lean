/-
  Compiled programs do not go wrong.

  * A fault blames the code (`Fault.blamesCode`) if there is nothing to run, no
    instruction where one should be, nothing to call, or no such local;
  * `run_safe`: no run of a compiled program ends with such a fault, whatever its
    limit.  The stack only underflows if the first function has parameters, which
    no one passes, and a machine that halts has one cell on its stack.
-/
import Mathlib.Tactic.Common
import DanishProse.Proofs.Correctness

namespace DanishProse

/-- The fault shows that the code makes no sense. -/
def Fault.blamesCode : Fault → Bool
  | noEntryPoint | decode _ _ | unresolvedSymbol _ | localOutOfFrame _ _ => true
  | _ => false

theorem Fault.blamesCode_of_isOverflow {fault : Fault} (h : fault.isOverflow = true) :
    fault.blamesCode = false ∧ fault ≠ .stackUnderflow := by
  cases fault <;> cases h <;> exact ⟨rfl, nofun⟩

/-- A call that has a result ends well, or a division fails. -/
theorem Outcome.fault_of_result? {outcome : Outcome (Cell × List String)} {r : RunResult}
    (h : outcome.result? = some r) :
    r.fault = none ∨ ∃ e : Cell.DivisionError, r.fault = some e.fault := by
  cases outcome with
  | done a =>
    cases h
    exact .inl rfl
  | failed e printed =>
    cases h
    exact .inr ⟨e, rfl⟩
  | unfinished => cases h
  | stuck => cases h

theorem Settings.steps_eq_zero_iff (layout : FrameLayout) (limit : Option Nat) :
    Settings.steps ⟨layout, limit⟩ = 0 ↔ limit = some 0 := by
  cases limit with
  | none => simp [Settings.steps, patience]
  | some n => simp [Settings.steps]

section
variable {t : Tree} {f : Function} {others : List Function}

/-- Without parameters, a run only ends with faults that are none of the code's. -/
theorem Tree.WellTyped.fault_of_ended (ht : t.WellTyped) (hfit : t.Fits)
    (hfirst : t.userFunctions = f :: others) (hnone : f.parameterTypes = []) {n : Nat}
    {r : RunResult} (h : advance t.program .derived n (.boot t.program .derived) = .ended r)
    {fault : Fault} (hfault : r.fault = some fault) :
    fault.blamesCode = false ∧ fault ≠ .stackUnderflow := by
  rcases ht.result_of_ended hfit hfirst hnone h with hr | ⟨full, hover, hfull⟩
  · rcases Outcome.fault_of_result? hr with hr | ⟨e, hr⟩
    · cases hr.symm.trans hfault
    · cases hr.symm.trans hfault
      cases e <;> exact ⟨rfl, nofun⟩
  · cases hover.symm.trans hfault
    exact Fault.blamesCode_of_isOverflow hfull

theorem Tree.WellTyped.fault_of_run (ht : t.WellTyped) (hfit : t.Fits)
    (hfirst : t.userFunctions = f :: others) (hnone : f.parameterTypes = []) {limit : Option Nat}
    {fault : Fault} (hfault : (t.program.run ⟨.derived, limit⟩).fault = some fault) :
    fault.blamesCode = false ∧ fault ≠ .stackUnderflow := by
  have hcode := ht.code_nonempty hfit hfirst
  simp only [Program.run, hcode, Bool.false_eq_true, if_false] at hfault
  cases h : advance t.program .derived (Settings.steps ⟨.derived, limit⟩) (.boot t.program .derived) with
  | running m =>
    rw [h] at hfault
    cases hfault
    refine ⟨rfl, ?_⟩
    rintro ⟨⟩
  | ended r =>
    rw [h] at hfault
    exact ht.fault_of_ended hfit hfirst hnone h hfault

/-- With parameters, a run does not get past its first instruction. -/
theorem Tree.WellTyped.advance_underflow (ht : t.WellTyped) (hfit : t.Fits)
    (hfirst : t.userFunctions = f :: others) (hsome : f.parameterTypes ≠ []) (k : Nat) :
    advance t.program .derived (k + 1) (.boot t.program .derived) = .ended ⟨"", some .stackUnderflow⟩ := by
  rw [advance, ht.boot_underflow hfit hfirst hsome]
  rfl

theorem Tree.WellTyped.run_of_parameters (ht : t.WellTyped) (hfit : t.Fits)
    (hfirst : t.userFunctions = f :: others) (hsome : f.parameterTypes ≠ []) (limit : Option Nat) :
    (t.program.run ⟨.derived, limit⟩).fault =
      some (if limit = some 0 then .stepLimit 0 else .stackUnderflow) := by
  have hcode := ht.code_nonempty hfit hfirst
  have hzero := Settings.steps_eq_zero_iff .derived limit
  simp only [Program.run, hcode, Bool.false_eq_true, if_false]
  cases hsteps : Settings.steps ⟨.derived, limit⟩ with
  | zero =>
    rw [if_pos (hzero.1 hsteps)]
    rfl
  | succ k =>
    rw [ht.advance_underflow hfit hfirst hsome, if_neg]
    rw [← hzero, hsteps]
    exact Nat.succ_ne_zero k

/-- **A machine that halts has one cell on its stack.** -/
theorem Tree.WellTyped.depth_of_halt (ht : t.WellTyped) (hfit : t.Fits)
    (hfirst : t.userFunctions = f :: others) {k : Nat} {m m' : Machine}
    (hm : advance t.program .derived k (.boot t.program .derived) = .running m)
    (hstep : step t.program .derived m = .ok (.halt m')) : m'.stack.depth = 1 := by
  have hend := advance_halted hm hstep
  by_cases hnone : f.parameterTypes = []
  · have hrun := ht.run_followed hfit hfirst hnone (k + 1)
    generalize t.call (k + 1 + 1) = outcome at hrun
    cases hrun with
    | done hsteps hreturns =>
      obtain ⟨m'', hstep', hdepth, -⟩ := halt_of_returns hreturns
      -- both halts are the end of the run, so they are one
      have hlt := lt_of_advance_running (advance_halted hsteps.advance hstep') hm
      have hgt := lt_of_advance_running hend hsteps.advance
      obtain rfl := Nat.le_antisymm (Nat.le_of_lt_succ hlt) (Nat.le_of_lt_succ hgt)
      cases hm.symm.trans hsteps.advance
      cases hstep.symm.trans hstep'
      exact hdepth
    | failed hstops =>
      obtain ⟨n, hn⟩ := hstops.ended
      cases congrArg RunResult.fault (advance_ended_unique hend hn)
    | unfinished hle hsteps =>
      obtain ⟨o, ho⟩ := hsteps.running_of_le hle
      cases hend.symm.trans ho
    | overflow _ hstops =>
      obtain ⟨n, hn⟩ := hstops.ended
      cases congrArg RunResult.fault (advance_ended_unique hend hn)
  · cases k with
    | zero =>
      cases hm
      cases hstep.symm.trans (ht.boot_underflow hfit hfirst hnone)
    | succ k => cases hm.symm.trans (ht.advance_underflow hfit hfirst hnone k)

end

/-- A run that ends without a fault comes to a machine that halts. -/
theorem exists_halt_of_ended {p : Program} {layout : FrameLayout} {r : RunResult} {n : Nat} {m : Machine}
    (h : advance p layout n m = .ended r) (hr : r.fault = none) :
    ∃ k m' m'', advance p layout k m = .running m' ∧ step p layout m' = .ok (.halt m'') ∧
      r = m''.result := by
  obtain ⟨k, m', -, hm', ⟨m'', hstep, hresult⟩ | ⟨fault, -, rfl⟩⟩ := exists_last_of_ended h
  · exact ⟨k, m', m'', hm', hstep, hresult⟩
  · cases hr

theorem exists_halt_of_run {p : Program} {layout : FrameLayout} {limit : Option Nat}
    (h : (p.run ⟨layout, limit⟩).fault = none) :
    ∃ k m m', advance p layout k (.boot p layout) = .running m ∧ step p layout m = .ok (.halt m') ∧
      p.run ⟨layout, limit⟩ = m'.result := by
  unfold Program.run at h ⊢
  split_ifs at h ⊢ with hcode
  cases hend : advance p layout (Settings.steps ⟨layout, limit⟩) (.boot p layout) with
  | running m =>
    rw [hend] at h
    cases h
  | ended r =>
    rw [hend] at h
    exact exists_halt_of_ended hend h

/-- **Compiled programs do not go wrong.**  No run ends with a fault that blames the
    code; the stack underflows just if the first function has parameters and
    the run gets to its first instruction; a machine that halts has one cell on
    its stack, and nothing is remarked on it. -/
theorem run_safe {source : String} {p : Program} {f : Function} (h : compile source = .ok p)
    (hfit : (Analysis.ofSource source).tree.Fits)
    (hfirst : (Analysis.ofSource source).tree.userFunctions.head? = some f) (limit : Option Nat) :
    let r := p.run ⟨.derived, limit⟩
    (∀ fault, r.fault = some fault → fault.blamesCode = false) ∧
      (r.fault = some .stackUnderflow ↔ f.pattern.parameters ≠ [] ∧ limit ≠ some 0) ∧
      (∀ k m m', advance p .derived k (.boot p .derived) = .running m →
        step p .derived m = .ok (.halt m') → m'.stack.depth = 1) ∧
      (r.fault = none → ∃ k m m', advance p .derived k (.boot p .derived) = .running m ∧
        step p .derived m = .ok (.halt m') ∧ r.output = m'.output) := by
  obtain ⟨ht, rfl, -⟩ := wellTyped_of_compile h
  obtain ⟨others, hfirst⟩ := List.head?_eq_some_iff.1 hfirst
  have hmem : f ∈ (Analysis.ofSource source).tree.userFunctions := by
    rw [hfirst]
    exact List.mem_cons_self
  refine ⟨?_, ?_, fun k m m' => ht.depth_of_halt hfit hfirst, fun hr => ?_⟩
  · intro fault hfault
    by_cases hnone : f.parameterTypes = []
    · exact (ht.fault_of_run hfit hfirst hnone hfault).1
    · rw [ht.run_of_parameters hfit hfirst hnone] at hfault
      cases hfault
      split_ifs <;> rfl
  · by_cases hnone : f.parameterTypes = []
    · refine iff_of_false (fun hfault => (ht.fault_of_run hfit hfirst hnone hfault).2 rfl) ?_
      exact fun hsome => hsome.1 ((ht.parameterTypes_eq_nil_iff hmem).1 hnone)
    · rw [ht.run_of_parameters hfit hfirst hnone, ne_eq, ← ht.parameterTypes_eq_nil_iff hmem]
      split_ifs with hlimit <;> simp [hnone, hlimit]
  · obtain ⟨k, m, m', hm, hstep, hresult⟩ := exists_halt_of_run hr
    have hdepth := ht.depth_of_halt hfit hfirst hm hstep
    rw [Machine.result_of_depth hdepth] at hresult
    exact ⟨k, m, m', hm, hstep, congrArg RunResult.output hresult⟩

theorem run_sample_safe : (sampleProgram.run ⟨.derived, some 9⟩).fault = none ∧
    ∃ k m m', advance sampleProgram .derived k (.boot sampleProgram .derived) = .running m ∧
      step sampleProgram .derived m = .ok (.halt m') ∧ m'.stack.depth = 1 ∧ m'.output = "2\n" := by
  obtain ⟨f, g, hfunctions, -⟩ := userFunctions_sample
  have hfirst := congrArg List.head? hfunctions
  have hrun : sampleProgram.run ⟨.derived, some 9⟩ = ⟨"2\n", none⟩ := rfl
  obtain ⟨-, -, hdepth, hhalt⟩ := run_safe compile_sample fits_sample hfirst (some 9)
  rw [hrun] at hhalt ⊢
  obtain ⟨k, m, m', hm, hstep, houtput⟩ := hhalt rfl
  exact ⟨rfl, k, m, m', hm, hstep, hdepth k m m' hm hstep, houtput.symm⟩

end DanishProse

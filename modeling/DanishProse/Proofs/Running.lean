/-
  Runs of compiled programs from their start.

  * The machine starts in an activation of the first function with nothing below
    it (`Tree.WellTyped.boot_eq`);
  * without parameters, the run follows a call of that function to any depth
    (`Tree.WellTyped.run_followed`), and when it returns the machine halts with
    one cell on the stack (`halt_of_returns`);
  * with parameters, the first instruction finds the stack empty
    (`Tree.WellTyped.boot_underflow`).
-/
import Mathlib.Tactic.Common
import DanishProse.Proofs.Simulation

namespace DanishProse

/-- When the first function returns, the machine halts with its value alone. -/
theorem halt_of_returns {p : Program} {k : Nat} {a : Cell × List String} {m : Machine}
    (h : Activation.bottom.Returns p k [] a m) :
    ∃ m', step p .derived m = .ok (.halt m') ∧ m'.stack.depth = 1 ∧
      m'.output = String.join a.2.reverse := by
  obtain ⟨ip, locals, hret, rfl⟩ := h
  obtain ⟨m', hstep, hstack, hprinted⟩ := step_halt [a.1] ⟨locals, a.2⟩ hret
  refine ⟨m', hstep, by rw [hstack]; rfl, ?_⟩
  rw [Machine.output, hprinted]

theorem Machine.result_of_depth {m : Machine} (h : m.stack.depth = 1) : m.result = ⟨m.output, none⟩ := by
  simp [Machine.result, stackRemark, h]

section
variable {t : Tree} {f : Function} {others : List Function}

/-- The first function stands at the start of the code, and its symbol comes first. -/
theorem Tree.WellTyped.first (ht : t.WellTyped) (hfit : t.Fits) (hfirst : t.userFunctions = f :: others) :
    t.program.entrySize = f.locals.length * 8 ∧ t.program.CodeAt 0 (f.code t.functions 0) ∧
      codeSize (f.code t.functions 0) ≤ t.program.code.size := by
  obtain ⟨rs, hrs⟩ := List.head?_eq_some_iff.1 (ht.region_first hfirst)
  have hmem := hrs ▸ List.mem_cons_self
  obtain ⟨hcode, hend⟩ := ht.codeAt_region hfit.addressable.compact hmem
  refine ⟨?_, hcode, by rwa [Nat.zero_add] at hend⟩
  have hf : f ∈ t.userFunctions := by rw [hfirst]; exact List.mem_cons_self
  rw [Program.entrySize, t.program_eq_regions, hrs, ← hfit.frameSize hf]
  simp

/-- **A run starts in an activation of the first function.** -/
theorem Tree.WellTyped.boot_eq (ht : t.WellTyped) (hfit : t.Fits)
    (hfirst : t.userFunctions = f :: others) :
    Machine.boot t.program .derived =
      Activation.bottom.machine 0 [] ⟨Vector.replicate f.locals.length 0, []⟩ := by
  rw [Machine.boot, FrameLayout.room, (ht.first hfit hfirst).1, Activation.entry_eq_frames]
  rfl

/-- **A run follows a call of the first function**, if it has no parameters. -/
theorem Tree.WellTyped.run_followed (ht : t.WellTyped) (hfit : t.Fits)
    (hfirst : t.userFunctions = f :: others) (hnone : f.parameterTypes = []) (n : Nat) :
    Follows t.program 1 n (Activation.bottom.Returns t.program f.locals.length [])
      (.boot t.program .derived) (t.call (n + 1)) := by
  have hf : t.userFunctions[0]? = some f := by rw [hfirst]; rfl
  obtain ⟨-, hcode, hend⟩ := ht.first hfit hfirst
  have hlen : ([] : List Cell).length = f.parameterTypes.length := by rw [hnone]; rfl
  rw [ht.boot_eq hfit hfirst, Tree.call, hfirst]
  exact ht.body_followed hfit (ht.calls_followed hfit n) hf hlen [] [] (Nat.le_refl 1) hcode
    (by rwa [Nat.zero_add])

/-- The code of a tree with functions is not empty. -/
theorem Tree.WellTyped.code_nonempty (ht : t.WellTyped) (hfit : t.Fits)
    (hfirst : t.userFunctions = f :: others) : t.program.code.isEmpty = false := by
  have hf : t.userFunctions[0]? = some f := by rw [hfirst]; rfl
  obtain ⟨o, ho⟩ := ht.region hf
  have hpos := ht.codeSize_region_pos (List.mem_of_getElem? ho)
  have hend := (ht.codeAt_region hfit.addressable.compact (List.mem_of_getElem? ho)).2
  rw [Array.isEmpty_eq_false_iff, ← Array.size_pos_iff]
  omega

theorem Tree.WellTyped.parameterTypes_eq_nil_iff (ht : t.WellTyped) (hf : f ∈ t.userFunctions) :
    f.parameterTypes = [] ↔ f.pattern.parameters = [] := by
  rw [← List.length_eq_zero_iff, ht.length_parameterTypes hf, List.length_eq_zero_iff]

/-- With parameters, the first function does not find its arguments. -/
theorem Tree.WellTyped.boot_underflow (ht : t.WellTyped) (hfit : t.Fits)
    (hfirst : t.userFunctions = f :: others) (hsome : f.parameterTypes ≠ []) :
    step t.program .derived (.boot t.program .derived) = .error .stackUnderflow := by
  have hmem : f ∈ t.userFunctions := by rw [hfirst]; exact List.mem_cons_self
  obtain ⟨-, hcode, -⟩ := ht.first hfit hfirst
  obtain ⟨slot, is, heq⟩ := Function.code_eq_stl ht hmem hsome 0
  rw [heq] at hcode
  rw [ht.boot_eq hfit hfirst]
  exact step_stl_empty _ hcode.1

end

end DanishProse

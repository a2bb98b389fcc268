/-
  The limit of instructions only cuts a run off.

  * `Reaches` carries out instructions one after the other, and `Program.StopsAt` says at
    which of them a run ends, and how.  Neither knows of a limit;
  * no instruction ends a run with the fault of a limit (`step_unlimited`), so that fault
    is the limit's own;
  * `Program.StopsAt.run_eq` and `Reaches.run_eq` say what a run with a limit comes to,
    according to which of limit and end is met first, and `limit_truncates` puts them
    together.
-/
import Mathlib.Tactic.Common
import DanishProse.Proofs.FrameLayouts

namespace DanishProse

/-! ## Faults of instructions -/

/-- What fails here fails for another reason than a limit. -/
def Unlimited {α : Type} (x : Except Fault α) : Prop :=
  ∀ limit, x ≠ .error (.stepLimit limit)

namespace Unlimited
variable {α β : Type}

theorem ok (a : α) : Unlimited (.ok a) := by
  intro limit h
  cases h

theorem error {fault : Fault} (h : ∀ limit, fault ≠ .stepLimit limit) :
    Unlimited (.error fault : Except Fault α) := by
  intro limit he
  cases he
  exact h limit rfl

theorem bind {x : Except Fault α} {f : α → Except Fault β} (hx : Unlimited x)
    (hf : ∀ a, Unlimited (f a)) : Unlimited (x >>= f) := by
  cases x with
  | ok a => exact hf a
  | error fault =>
    intro limit h
    cases h
    exact hx limit rfl

theorem map {x : Except Fault α} (hx : Unlimited x) (f : α → β) : Unlimited (x.map f) := by
  cases x with
  | ok a => exact ok _
  | error fault =>
    intro limit h
    cases h
    exact hx limit rfl

end Unlimited

namespace Stack

theorem push_unlimited (s : Stack) (c : Cell) : Unlimited (s.push c) := by
  unfold push
  dsimp only
  split_ifs
  · exact .ok _
  · exact .error (by simp)

theorem pop_unlimited (s : Stack) : Unlimited s.pop := by
  obtain ⟨cells, depth, h⟩ := s
  cases cells with
  | nil => exact .error (by simp)
  | cons c cells => exact .ok _

theorem peek_unlimited (s : Stack) : Unlimited s.peek := by
  obtain ⟨cells, depth, h⟩ := s
  cases cells with
  | nil => exact .error (by simp)
  | cons c cells => exact .ok _

theorem unary_unlimited (s : Stack) (f : Cell → Cell) : Unlimited (s.unary f) :=
  s.pop_unlimited.bind fun _ => push_unlimited _ _

theorem binary_unlimited (s : Stack) (f : Cell → Cell → Cell) : Unlimited (s.binary f) :=
  s.pop_unlimited.bind fun _ => (pop_unlimited _).bind fun _ => push_unlimited _ _

theorem divide_unlimited (s : Stack) (f : Cell → Cell → Except Cell.DivisionError Cell) :
    Unlimited (s.divide f) := by
  refine s.pop_unlimited.bind fun ⟨b, s₁⟩ => (pop_unlimited _).bind fun ⟨a, s₂⟩ => ?_
  dsimp only
  cases f a b with
  | ok c => exact push_unlimited _ _
  | error e => cases e <;> exact .error (by simp [Cell.DivisionError.fault])

/-- No operation on the stack fails for a limit. -/
theorem onStack_unlimited {op : OpCode} {s : Stack} {x : Except Fault Stack}
    (h : op.onStack? s = some x) : Unlimited x := by
  cases op
  case nop => cases h; exact .ok s
  case pop => cases h; exact s.pop_unlimited.map _
  case dup => cases h; exact s.peek_unlimited.bind s.push_unlimited
  case not | i2f | f2i => cases h; exact s.unary_unlimited _
  case udiv | idiv => cases h; exact s.divide_unlimited _
  case ldi | ldl | stl | call | ret | br => cases h
  all_goals cases h; exact s.binary_unlimited _

end Stack

namespace CallStack

theorem push_unlimited (s : CallStack) (size returnOffset : Nat) : Unlimited (s.push size returnOffset) := by
  unfold push
  split_ifs
  · exact .error (by simp)
  · exact .ok _

theorem load_unlimited (s : CallStack) (slot : Nat) : Unlimited (s.load slot) := by
  unfold load
  split_ifs
  · exact .ok _
  · exact .error (by simp)

theorem store_unlimited (s : CallStack) (slot : Nat) (c : Cell) : Unlimited (s.store slot c) := by
  unfold store
  split_ifs
  · exact .ok _
  · exact .error (by simp)

end CallStack

section
variable (p : Program) (layout : FrameLayout)

theorem callSymbol_unlimited (v : UInt64) (m : Machine) : Unlimited (callSymbol p layout v m) := by
  obtain ⟨ip, stack, frames, printed⟩ := m
  simp only [callSymbol]
  split
  · exact (Stack.pop_unlimited _).bind fun _ => (Stack.push_unlimited _ _).bind fun _ => .ok _
  · split
    · exact (CallStack.push_unlimited _ _ _).bind fun _ => .ok _
    · exact .error (by simp)

theorem execute_unlimited (i : Instruction) (m : Machine) : Unlimited (execute p layout i m) := by
  cases hop : i.opcode.onStack? m.stack with
  | some result =>
    rw [execute_onStack hop]
    exact (Stack.onStack_unlimited hop).bind fun _ => .ok _
  | none =>
    obtain ⟨op, v, w⟩ := i
    obtain ⟨ip, stack, frames, printed⟩ := m
    cases op with
    | ldi => exact (stack.push_unlimited _).bind fun _ => .ok _
    | ldl => exact (frames.load_unlimited _).bind fun _ => (stack.push_unlimited _).bind fun _ => .ok _
    | stl => exact stack.pop_unlimited.bind fun _ => (frames.store_unlimited _ _).bind fun _ => .ok _
    | br => exact stack.pop_unlimited.bind fun _ => .ok _
    | call =>
      rw [execute_call]
      exact callSymbol_unlimited p layout v _
    | ret =>
      simp only [execute]
      split
      · split <;> exact .ok _
      · exact .ok _
    | _ => cases hop

/-- **No instruction fails for a limit.** -/
theorem step_unlimited (m : Machine) : Unlimited (step p layout m) := by
  unfold step
  split
  · exact .error (by simp)
  · exact execute_unlimited p layout _ m

end

/-! ## Runs without a limit -/

/-- A number of instructions lead from one machine to another. -/
inductive Reaches (p : Program) (layout : FrameLayout) : Nat → Machine → Machine → Prop
  | refl (m : Machine) : Reaches p layout 0 m m
  | next {n : Nat} {m m₁ m' : Machine} : step p layout m = .ok (.next m₁) → Reaches p layout n m₁ m' →
      Reaches p layout (n + 1) m m'

/-- The run of a program ends at its `n`th instruction, which halts or cannot be carried out. -/
inductive Program.StopsAt (p : Program) (layout : FrameLayout) : Nat → RunResult → Prop
  | halts {n : Nat} {m m' : Machine} : Reaches p layout n (.boot p layout) m →
      step p layout m = .ok (.halt m') → StopsAt p layout (n + 1) m'.result
  | fails {n : Nat} {m : Machine} {fault : Fault} : Reaches p layout n (.boot p layout) m →
      step p layout m = .error fault → StopsAt p layout (n + 1) ⟨m.output, some fault⟩

section
variable {p : Program} {layout : FrameLayout} {n limit : Nat} {m m' : Machine} {r : RunResult}

theorem advance_eq_running_iff : advance p layout n m = .running m' ↔ Reaches p layout n m m' := by
  constructor
  · intro h
    induction n generalizing m with
    | zero =>
      cases h
      exact .refl _
    | succ n ih =>
      rw [advance] at h
      split at h
      · next m₁ hstep => exact .next hstep (ih h)
      · cases h
      · cases h
  · intro h
    induction h with
    | refl m => rfl
    | next hstep _ ih => rw [advance, hstep]; exact ih

/-- An end is never the fault of a limit. -/
theorem Program.StopsAt.fault_ne (h : p.StopsAt layout n r) (limit : Nat) :
    r.fault ≠ some (.stepLimit limit) := by
  cases h with
  | halts => simp [Machine.result]
  | fails _ hstep =>
    intro hfault
    cases hfault
    exact step_unlimited p layout _ limit hstep

theorem Program.StopsAt.advance_eq (h : p.StopsAt layout n r) (hle : n ≤ limit) :
    advance p layout limit (.boot p layout) = .ended r := by
  cases h with
  | halts hreach hstep =>
    exact advance_ended_of_le (advance_halted (advance_eq_running_iff.2 hreach) hstep) hle
  | fails hreach hstep =>
    exact advance_ended_of_le (advance_stopped (advance_eq_running_iff.2 hreach) hstep) hle

theorem Reaches.exists_of_le (h : Reaches p layout n m m') (hle : limit ≤ n) :
    ∃ o, Reaches p layout limit m o := by
  induction h generalizing limit with
  | refl m =>
    rw [Nat.le_zero.1 hle]
    exact ⟨m, .refl m⟩
  | next hstep _ ih =>
    cases limit with
    | zero => exact ⟨_, .refl _⟩
    | succ limit =>
      obtain ⟨o, ho⟩ := ih (Nat.le_of_succ_le_succ hle)
      exact ⟨o, .next hstep ho⟩

/-- Before its end, a run is under way. -/
theorem Program.StopsAt.reaches (h : p.StopsAt layout n r) (hlt : limit < n) :
    ∃ m, Reaches p layout limit (.boot p layout) m := by
  cases h with
  | halts hreach _ => exact hreach.exists_of_le (Nat.le_of_lt_succ hlt)
  | fails hreach _ => exact hreach.exists_of_le (Nat.le_of_lt_succ hlt)

/-- **A run with a limit ends within it, or comes to it.** -/
theorem stopsAt_or_reaches (p : Program) (layout : FrameLayout) (limit : Nat) :
    (∃ n ≤ limit, ∃ r, p.StopsAt layout n r) ∨ ∃ m, Reaches p layout limit (.boot p layout) m := by
  cases h : advance p layout limit (.boot p layout) with
  | running m => exact .inr ⟨m, advance_eq_running_iff.1 h⟩
  | ended r =>
    obtain ⟨k, m, hk, hm, ⟨m', hstep, -⟩ | ⟨fault, hstep, -⟩⟩ := exists_last_of_ended h
    · exact .inl ⟨k + 1, hk, _, .halts (advance_eq_running_iff.1 hm) hstep⟩
    · exact .inl ⟨k + 1, hk, _, .fails (advance_eq_running_iff.1 hm) hstep⟩

end

/-! ## Runs with a limit -/

section
variable {p : Program} {layout : FrameLayout} {n limit limit' : Nat} {m : Machine} {r : RunResult}
variable (hcode : p.code ≠ #[])
include hcode

theorem run_eq_advance (layout : FrameLayout) (limit : Nat) : p.run ⟨layout, some limit⟩ =
    (advance p layout limit (.boot p layout)).result limit :=
  Program.run_eq_result (Array.isEmpty_eq_false_iff.2 hcode) ⟨layout, some limit⟩

/-- A run that ends within its limit has the result that it has without one. -/
theorem Program.StopsAt.run_eq (h : p.StopsAt layout n r) (hle : n ≤ limit) :
    p.run ⟨layout, some limit⟩ = r := by
  rw [run_eq_advance hcode, h.advance_eq hle]
  rfl

/-- A run that has not ended by then comes to its limit. -/
theorem Reaches.run_eq (h : Reaches p layout limit (.boot p layout) m) :
    p.run ⟨layout, some limit⟩ = ⟨m.output, some (.stepLimit limit)⟩ := by
  rw [run_eq_advance hcode, advance_eq_running_iff.2 h]
  rfl

/-- What has been printed when a limit is met is the beginning of what is printed under a higher one. -/
theorem Reaches.output_run (h : Reaches p layout limit (.boot p layout) m) (hle : limit ≤ limit') :
    ∃ more, (p.run ⟨layout, some limit'⟩).output = m.output ++ more := by
  rw [run_eq_advance hcode]
  exact output_of_advance_running (advance_eq_running_iff.2 h) hle limit'

/-- Two ways to go on from a limit: the run has ended before, or it has carried out as many
    instructions and is stopped there. -/
theorem run_cases (layout : FrameLayout) (limit : Nat) :
    (∃ n ≤ limit, p.StopsAt layout n (p.run ⟨layout, some limit⟩)) ∨
      ∃ m, Reaches p layout limit (.boot p layout) m ∧
        p.run ⟨layout, some limit⟩ = ⟨m.output, some (.stepLimit limit)⟩ := by
  rcases stopsAt_or_reaches p layout limit with ⟨n, hle, r, h⟩ | ⟨m, h⟩
  · rw [h.run_eq hcode hle]
    exact .inl ⟨n, hle, h⟩
  · exact .inr ⟨m, h, h.run_eq hcode⟩

end

/-- A run without a limit is one with a limit that is out of reach. -/
theorem Program.StopsAt.run_none {p : Program} {layout : FrameLayout} {n : Nat} {r : RunResult}
    (h : p.StopsAt layout n r) (hcode : p.code ≠ #[]) (hle : n ≤ patience) :
    p.run ⟨layout, none⟩ = r := by
  rw [show p.run ⟨layout, none⟩ = p.run ⟨layout, some patience⟩ from rfl]
  exact h.run_eq hcode hle

/-- **A limit only cuts a run off.**  A run with a limit ends at an instruction within it, or is
    stopped after as many instructions as the limit says.  If it is not stopped, every higher limit
    gives the same result, and so does the run without any; if it is stopped, its output is the
    beginning of that under a higher limit.  A run that ends at its `n`th instruction ends so with
    the limit `n`, and is stopped by every lower one. -/
theorem limit_truncates {p : Program} (hcode : p.code ≠ #[]) (layout : FrameLayout) {limit limit' : Nat}
    (hle : limit ≤ limit') :
    let r := p.run ⟨layout, some limit⟩
    let r' := p.run ⟨layout, some limit'⟩
    ((∃ n ≤ limit, p.StopsAt layout n r) ∨ ∃ m, Reaches p layout limit (.boot p layout) m ∧
      r = ⟨m.output, some (.stepLimit limit)⟩) ∧
    ((∀ k, r.fault ≠ some (.stepLimit k)) → r' = r ∧ ∃ n ≤ limit, p.StopsAt layout n r) ∧
    (∀ k, r.fault = some (.stepLimit k) → k = limit ∧
      (∃ m, Reaches p layout limit (.boot p layout) m ∧ r.output = m.output) ∧
      ∃ more, r'.output = r.output ++ more) ∧
    ∀ n s, p.StopsAt layout n s →
      p.run ⟨layout, some n⟩ = s ∧ (n ≤ patience → p.run ⟨layout, none⟩ = s) ∧
      ∀ k < n, (p.run ⟨layout, some k⟩).fault = some (.stepLimit k) := by
  intro r r'
  have hcases := run_cases hcode layout limit
  refine ⟨hcases, fun hne => ?_, fun k hk => ?_, fun n s hs => ⟨hs.run_eq hcode (Nat.le_refl n),
    hs.run_none hcode, fun k hk => ?_⟩⟩
  · obtain ⟨n, hn, hstop⟩ | ⟨m, -, hr⟩ := hcases
    · exact ⟨hstop.run_eq hcode (Nat.le_trans hn hle), n, hn, hstop⟩
    · exact absurd (congrArg RunResult.fault hr) (hne limit)
  · obtain ⟨n, -, hstop⟩ | ⟨m, hreach, hr⟩ := hcases
    · exact absurd hk (hstop.fault_ne k)
    · have hr : r = ⟨m.output, some (.stepLimit limit)⟩ := hr
      rw [hr] at hk ⊢
      cases hk
      exact ⟨rfl, ⟨m, hreach, rfl⟩, hreach.output_run hcode hle⟩
  · obtain ⟨m, hm⟩ := hs.reaches hk
    rw [hm.run_eq hcode]

/-- Prints a one, and returns. -/
def printingProgram : Program :=
  ⟨[], #[0x01, 0x01, 0x99, 0xef, 0xbe, 0xad, 0xde, 0x1a]⟩

theorem limit_truncates_printing :
    printingProgram.code ≠ #[] ∧ 2 ≤ 3 ∧
      printingProgram.run ⟨.derived, some 2⟩ = ⟨"1\n", some (.stepLimit 2)⟩ ∧
      printingProgram.run ⟨.derived, some 3⟩ = ⟨"1\n", none⟩ ∧
      (∃ m, Reaches printingProgram .derived 2 (.boot printingProgram .derived) m ∧ m.output = "1\n") ∧
      ∃ n ≤ 3, printingProgram.StopsAt .derived n ⟨"1\n", none⟩ := by
  have hcode : printingProgram.code ≠ #[] := by decide
  have htwo : printingProgram.run ⟨.derived, some 2⟩ = ⟨"1\n", some (.stepLimit 2)⟩ := by decide +kernel
  have hthree : printingProgram.run ⟨.derived, some 3⟩ = ⟨"1\n", none⟩ := by decide +kernel
  obtain ⟨-, -, hstopped, -⟩ := limit_truncates hcode .derived (show 2 ≤ 3 by decide)
  obtain ⟨-, hended, -⟩ := limit_truncates hcode .derived (Nat.le_refl 3)
  rw [htwo] at hstopped
  rw [hthree] at hended
  obtain ⟨-, ⟨m, hreach, houtput⟩, -⟩ := hstopped 2 rfl
  exact ⟨hcode, by decide, htwo, hthree, ⟨m, hreach, houtput.symm⟩, (hended (by simp)).2⟩

end DanishProse

/-
  Runs of the machine beside outcomes of an evaluation.

  * `Steps p d n m m'`: the machine goes from `m` to `m'` in `n` instructions,
    with at least `d` frames open before each of them; `Stops`: it goes on to a
    fault in this way;
  * `Follows p d n Q m r`: from `m` the machine does what the outcome `r` says.
    To a value it comes to a state that `Q` relates to the value, on a failure it
    stops, and to what is unfinished it takes `n` instructions at least.  On any
    of these ways a stack may overflow.

  `Follows.bind` puts runs together as evaluations are.
-/
import Mathlib.Tactic.Common
import DanishProse.Proofs.Evaluation

namespace DanishProse

/-! ## Steps -/

/-- Carries out `n` instructions, with at least `d` frames open before each. -/
inductive Steps (p : Program) (d : Nat) : Nat → Machine → Machine → Prop
  | refl (m : Machine) : Steps p d 0 m m
  | step {m m' m'' : Machine} {n : Nat} : d ≤ m.frames.depth →
      DanishProse.step p .derived m = .ok (.next m') → Steps p d n m' m'' → Steps p d (n + 1) m m''

/-- Comes to a fault, with at least `d` frames open until then; this has been printed. -/
def Stops (p : Program) (d : Nat) (m : Machine) (fault : Fault) (printed : List String) : Prop :=
  ∃ n m', Steps p d n m m' ∧ d ≤ m'.frames.depth ∧ step p .derived m' = .error fault ∧
    m'.printed = printed

section
variable {p : Program} {d k n : Nat} {m m' m'' : Machine}

theorem Steps.trans (h : Steps p d k m m') (h' : Steps p d n m' m'') : Steps p d (k + n) m m'' := by
  induction h with
  | refl m => rwa [Nat.zero_add]
  | step hd hstep _ ih =>
    rw [Nat.succ_add]
    exact .step hd hstep (ih h')

theorem Steps.advance (h : Steps p d n m m') : advance p .derived n m = .running m' := by
  induction h with
  | refl m => rfl
  | step _ hstep _ ih =>
    rw [DanishProse.advance, hstep]
    exact ih

/-- Enough frames are open in between. -/
theorem Steps.depth_le (h : Steps p d n m m') {j : Nat} (hj : j < n) :
    ∃ o, DanishProse.advance p .derived j m = .running o ∧ d ≤ o.frames.depth := by
  induction h generalizing j with
  | refl m => omega
  | step hd hstep _ ih =>
    cases j with
    | zero => exact ⟨_, rfl, hd⟩
    | succ j =>
      obtain ⟨o, ho, hdepth⟩ := ih (Nat.lt_of_succ_lt_succ hj)
      refine ⟨o, ?_, hdepth⟩
      rw [DanishProse.advance, hstep]
      exact ho

theorem Stops.of_steps {fault : Fault} {printed : List String} (h : Steps p d k m m')
    (h' : Stops p d m' fault printed) : Stops p d m fault printed := by
  obtain ⟨n, o, hsteps, hd, hstep, hprinted⟩ := h'
  exact ⟨k + n, o, h.trans hsteps, hd, hstep, hprinted⟩

end

/-! ## Following an outcome -/

/-- A stack is full. -/
def Fault.isOverflow : Fault → Bool
  | stackOverflow | callStackOverflow => true
  | _ => false

/-- From a state the machine does what an outcome says, unless a stack overflows. -/
inductive Follows (p : Program) (d n : Nat) {α : Type} (Q : α → Machine → Prop) (m : Machine) :
    Outcome α → Prop
  | done {a : α} {k : Nat} {m' : Machine} : Steps p d k m m' → Q a m' → Follows p d n Q m (.done a)
  | failed {e : Cell.DivisionError} {printed : List String} : Stops p d m e.fault printed →
      Follows p d n Q m (.failed e printed)
  | unfinished {k : Nat} {m' : Machine} : n ≤ k → Steps p d k m m' → Follows p d n Q m .unfinished
  | overflow {r : Outcome α} {fault : Fault} {printed : List String} : fault.isOverflow = true →
      Stops p d m fault printed → Follows p d n Q m r

namespace Follows
variable {p : Program} {d n : Nat} {α β : Type} {m m' : Machine} {r : Outcome α}
  {Q : α → Machine → Prop} {R : β → Machine → Prop}

theorem here {a : α} (h : Q a m) : Follows p d n Q m (.done a) :=
  .done (.refl m) h

theorem of_steps {k : Nat} (hsteps : Steps p d k m m') (h : Follows p d n Q m' r) :
    Follows p d (k + n) Q m r := by
  cases h with
  | done h hQ => exact .done (hsteps.trans h) hQ
  | failed h => exact .failed (h.of_steps hsteps)
  | unfinished hn h => exact .unfinished (Nat.add_le_add_left hn k) (hsteps.trans h)
  | overflow ho h => exact .overflow ho (h.of_steps hsteps)

theorem less {l : Nat} (hle : l ≤ n) (h : Follows p d n Q m r) : Follows p d l Q m r := by
  cases h with
  | done h hQ => exact .done h hQ
  | failed h => exact .failed h
  | unfinished hn h => exact .unfinished (Nat.le_trans hle hn) h
  | overflow ho h => exact .overflow ho h

theorem imp {S : α → Machine → Prop} (h : Follows p d n Q m r) (hQ : ∀ a m', Q a m' → S a m') :
    Follows p d n S m r := by
  cases h with
  | done h hQ' => exact .done h (hQ _ _ hQ')
  | failed h => exact .failed h
  | unfinished hn h => exact .unfinished hn h
  | overflow ho h => exact .overflow ho h

/-- **Runs are put together as evaluations are.** -/
theorem bind {f : α → Outcome β} (h : Follows p d n Q m r)
    (hf : ∀ a m', Q a m' → Follows p d n R m' (f a)) : Follows p d n R m (r >>= f) := by
  cases h with
  | done h hQ => exact (of_steps h (hf _ _ hQ)).less (Nat.le_add_left n _)
  | failed h => exact .failed h
  | unfinished hn h => exact .unfinished hn h
  | overflow ho h => exact .overflow ho h

/-- More instructions behind a value. -/
theorem extend {S : α → Machine → Prop} (h : Follows p d n Q m r)
    (hQ : ∀ a m', Q a m' → Follows p d n S m' (.done a)) : Follows p d n S m r := by
  cases h with
  | done h hQ' => exact (of_steps h (hQ _ _ hQ')).less (Nat.le_add_left n _)
  | failed h => exact .failed h
  | unfinished hn h => exact .unfinished hn h
  | overflow ho h => exact .overflow ho h

/-- One instruction first. -/
theorem step (hd : d ≤ m.frames.depth) (hstep : DanishProse.step p .derived m = .ok (.next m'))
    (h : Follows p d n Q m' r) : Follows p d (n + 1) Q m r := by
  rw [Nat.add_comm]
  exact of_steps (.step hd hstep (.refl m')) h

/-- An instruction that overflows a stack. -/
theorem overflows {fault : Fault} (hd : d ≤ m.frames.depth) (ho : fault.isOverflow = true)
    (hstep : DanishProse.step p .derived m = .error fault) : Follows p d n Q m r :=
  .overflow ho ⟨0, m, .refl m, hd, hstep, rfl⟩

/-- An instruction that a division stops at. -/
theorem fails {e : Cell.DivisionError} {printed : List String} (hd : d ≤ m.frames.depth)
    (hstep : DanishProse.step p .derived m = .error e.fault) (hprinted : m.printed = printed) :
    Follows p d n Q m (.failed e printed) :=
  .failed ⟨0, m, .refl m, hd, hstep, hprinted⟩

end Follows

/-! ## Ends of runs -/

section
variable {p : Program} {layout : FrameLayout} {d n k : Nat} {m m' : Machine} {r s : RunResult}

theorem advance_ended_of_le (h : advance p layout n m = .ended r) (hle : n ≤ k) :
    advance p layout k m = .ended r := by
  obtain ⟨j, rfl⟩ := Nat.exists_eq_add_of_le hle
  rw [advance_add, h]

/-- A run has one end at most. -/
theorem advance_ended_unique (h : advance p layout n m = .ended r)
    (h' : advance p layout k m = .ended s) : r = s := by
  rcases Nat.le_total n k with hle | hle
  · cases (advance_ended_of_le h hle).symm.trans h'
    rfl
  · cases (advance_ended_of_le h' hle).symm.trans h
    rfl

/-- A run that has ended does not run on. -/
theorem lt_of_advance_running (h : advance p layout n m = .ended r)
    (h' : advance p layout k m = .running m') : k < n := by
  by_contra hge
  cases (advance_ended_of_le h (Nat.not_lt.1 hge)).symm.trans h'

theorem Steps.running_of_le (h : Steps p d n m m') (hle : k ≤ n) :
    ∃ o, DanishProse.advance p .derived k m = .running o := by
  rcases Nat.lt_or_eq_of_le hle with hlt | rfl
  · obtain ⟨o, ho, -⟩ := h.depth_le hlt
    exact ⟨o, ho⟩
  · exact ⟨m', h.advance⟩

/-- What every step keeps, a run keeps. -/
theorem advance_keeps {I : Machine → Prop}
    (hstep : ∀ o o', I o → step p layout o = .ok (.next o') → I o') (hm : I m)
    (h : advance p layout n m = .running m') : I m' := by
  induction n generalizing m with
  | zero =>
    cases h
    exact hm
  | succ n ih =>
    rw [advance] at h
    split at h
    · next o ho => exact ih (hstep m o hm ho) h
    · cases h
    · cases h

/-- A run ends at an instruction that cannot be carried out. -/
theorem advance_stopped {fault : Fault} (h : advance p layout n m = .running m')
    (hstep : step p layout m' = .error fault) :
    advance p layout (n + 1) m = .ended ⟨m'.output, some fault⟩ := by
  rw [advance_add, h]
  simp only [advance, hstep]
  rfl

theorem Stops.ended {fault : Fault} {printed : List String} (h : Stops p d m fault printed) :
    ∃ n, advance p .derived n m = .ended ⟨String.join printed.reverse, some fault⟩ := by
  obtain ⟨n, o, hsteps, -, hstep, rfl⟩ := h
  exact ⟨n + 1, advance_stopped hsteps.advance hstep⟩

/-- A run that has ended halted, or came to a fault, at its last instruction. -/
theorem exists_last_of_ended (h : advance p layout n m = .ended r) :
    ∃ k m', k < n ∧ advance p layout k m = .running m' ∧
      ((∃ m'', step p layout m' = .ok (.halt m'') ∧ r = m''.result) ∨
        ∃ fault, step p layout m' = .error fault ∧ r = ⟨m'.output, some fault⟩) := by
  induction n generalizing m with
  | zero => cases h
  | succ n ih =>
    cases hstep : step p layout m with
    | error fault =>
      simp only [advance, hstep] at h
      cases h
      exact ⟨0, m, Nat.succ_pos n, rfl, .inr ⟨fault, hstep, rfl⟩⟩
    | ok effect =>
      simp only [advance, hstep] at h
      cases effect with
      | next m₁ =>
        obtain ⟨k, m', hk, hm', hlast⟩ := ih h
        refine ⟨k + 1, m', Nat.succ_lt_succ hk, ?_, hlast⟩
        rw [advance, hstep]
        exact hm'
      | halt m₁ =>
        cases h
        exact ⟨0, m, Nat.succ_pos n, rfl, .inl ⟨m₁, hstep, rfl⟩⟩

theorem advance_halted {m'' : Machine} (h : advance p layout n m = .running m')
    (hstep : step p layout m' = .ok (.halt m'')) :
    advance p layout (n + 1) m = .ended m''.result := by
  rw [advance_add, h]
  simp only [advance, hstep]

end

end DanishProse

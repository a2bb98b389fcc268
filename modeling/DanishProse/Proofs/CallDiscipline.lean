/-
  What a call leaves behind when it returns.

  * `Program.ReturnsTo`: from the state behind a call, the machine comes to a
    state in which no more frames are open than when the call was made, and it is
    the first one;
  * `Tree.WellTyped.call_returns`: in that state the machine goes on behind the
    call, with the cells that were below the arguments, one value on top, and the
    frames of the caller as they were;
  * `call_discipline`: in all runs of compiled programs the arguments of a call
    are on the stack, and calls return in this way.
-/
import Mathlib.Tactic.Common
import DanishProse.Proofs.Safety

namespace DanishProse

/-- The first state with no more than `d` frames. -/
def Program.ReturnsTo (p : Program) (d : Nat) (m m' : Machine) : Prop :=
  ∃ n, advance p .derived n m = .running m' ∧ m'.frames.depth ≤ d ∧
    ∀ k < n, ∀ o, advance p .derived k m = .running o → d < o.frames.depth

section
variable {p : Program} {d : Nat} {m m' m'' : Machine}

/-- While more frames are open, there is no return. -/
theorem Program.ReturnsTo.unique {n : Nat} (h : p.ReturnsTo d m m') (hsteps : Steps p (d + 1) n m m'')
    (hdepth : m''.frames.depth ≤ d) : m' = m'' := by
  obtain ⟨k, hk, hle, hfirst⟩ := h
  rcases Nat.lt_trichotomy k n with hlt | rfl | hgt
  · obtain ⟨o, ho, hopen⟩ := hsteps.depth_le hlt
    cases hk.symm.trans ho
    omega
  · cases hk.symm.trans hsteps.advance
    rfl
  · have := hfirst n hgt m'' hsteps.advance
    omega

theorem Program.ReturnsTo.lt_of_steps {n k : Nat} (hsteps : Steps p (d + 1) n m m'')
    (hopen : d < m''.frames.depth) (hk : advance p .derived k m = .running m')
    (hdepth : m'.frames.depth ≤ d) : n < k := by
  by_contra hle
  rcases Nat.lt_or_eq_of_le (Nat.not_lt.1 hle) with hlt | rfl
  · obtain ⟨o, ho, hopen'⟩ := hsteps.depth_le hlt
    cases hk.symm.trans ho
    omega
  · cases hk.symm.trans hsteps.advance
    omega

theorem Program.ReturnsTo.of_steps {n : Nat} (hsteps : Steps p (d + 1) n m m')
    (hdepth : m'.frames.depth ≤ d) : p.ReturnsTo d m m' := by
  refine ⟨n, hsteps.advance, hdepth, fun k hk o ho => ?_⟩
  obtain ⟨o', ho', hopen⟩ := hsteps.depth_le hk
  cases ho.symm.trans ho'
  exact hopen

/-- A call that stops does not return. -/
theorem Program.ReturnsTo.not_stops {fault : Fault} {printed : List String} (h : p.ReturnsTo d m m') :
    ¬ Stops p (d + 1) m fault printed := by
  rintro ⟨n, o, hsteps, hopen, hstep, -⟩
  obtain ⟨k, hk, hdepth, -⟩ := h
  have hlt := Program.ReturnsTo.lt_of_steps hsteps hopen hk hdepth
  have hend := advance_stopped hsteps.advance hstep
  exact absurd hlt (Nat.not_lt.2 (Nat.le_of_lt_succ (lt_of_advance_running hend hk)))

end

section
variable {t : Tree} {j : Nat} {f : Function} {i : Instruction} {m m₁ m₂ : Machine}

/-- A call that is carried out goes on at the start of its function. -/
theorem Tree.WellTyped.called (ht : t.WellTyped) (hfit : t.Fits) (hf : t.userFunctions[j]? = some f)
    (hi : Instruction.decode t.program.code m.ip = .ok i) (hop : i.opcode = .call)
    (hid : i.operand.toNat = j + 1) (hstep : step t.program .derived m = .ok (.next m₁)) :
    ∃ o, t.program.CodeAt o (f.code t.functions o) ∧
      o + codeSize (f.code t.functions o) ≤ t.program.code.size ∧
        m₁ = (Activation.above m.frames (m.ip + i.size)).machine o m.stack.cells
          ⟨Vector.replicate f.locals.length 0, m.printed⟩ := by
  obtain ⟨o, hcallee, hcode, hend⟩ := ht.exists_symbol hfit hf
  have hj := (List.getElem?_eq_some_iff.1 hf).1
  have hfunctions := hfit.functions
  rw [← hid] at hcallee
  have hcall := step_call m.stack.cells m.frames m.printed hop (by omega) hcallee hi
  rw [Stack.ofCells_cells] at hcall
  split_ifs at hcall with hfull
  · cases hstep.symm.trans hcall
  · refine ⟨o, hcode, hend, ?_⟩
    cases hstep.symm.trans hcall
    rfl

/-- **A call that returns leaves its value, and nothing else.** -/
theorem Tree.WellTyped.call_returns (ht : t.WellTyped) (hfit : t.Fits)
    (hf : t.userFunctions[j]? = some f) (hi : Instruction.decode t.program.code m.ip = .ok i)
    (hop : i.opcode = .call) (hid : i.operand.toNat = j + 1) {arguments cells : List Cell}
    (hlen : arguments.length = f.parameterTypes.length) (hcells : m.stack.cells = arguments ++ cells)
    (hstep : step t.program .derived m = .ok (.next m₁))
    (hret : t.program.ReturnsTo m.frames.depth m₁ m₂) :
    m₂.ip = m.ip + i.size ∧ (∃ v, m₂.stack.cells = v :: cells) ∧ m₂.frames = m.frames := by
  obtain ⟨o, hcode, hend, rfl⟩ := ht.called hfit hf hi hop hid hstep
  have hdepth : m.frames.depth + 1 ≤ (Activation.above m.frames (m.ip + i.size)).depth := by
    rw [m.frames.depth_eq]
    exact Nat.le_refl _
  have hrev : arguments.reverse.length = f.parameterTypes.length := by rwa [List.length_reverse]
  obtain ⟨n, hn, hle, -⟩ := id hret
  -- deeper than the call runs: what is unfinished there has not returned yet
  have hrun := ht.body_followed hfit (ht.calls_followed hfit (n + 1)) hf hrev cells m.printed hdepth
    hcode hend
  rw [List.reverse_reverse, ← hcells] at hrun
  generalize f.invoke t.functions (n + 1 + 1) arguments.reverse m.printed = outcome at hrun
  cases hrun with
  | done hsteps hreturns =>
    obtain ⟨ip, locals, hcode, rfl⟩ := hreturns
    rw [hret.unique (hsteps.trans (.step hdepth (step_ret hcode) (.refl _))) (Nat.le_refl _)]
    exact ⟨rfl, ⟨_, rfl⟩, rfl⟩
  | failed hstops => exact absurd hstops hret.not_stops
  | unfinished hmore hsteps =>
    obtain ⟨o', ho, hopen⟩ := hsteps.depth_le hmore
    cases hn.symm.trans ho
    omega
  | overflow _ hstops => exact absurd hstops hret.not_stops

/-- A function that does not find its arguments stops. -/
theorem stops_prologue {p : Program} {d k : Nat} {A : Activation} (hd : d ≤ A.depth) (hk : k < 2 ^ 29) :
    ∀ {ls : List Local} {ip : Nat} {cells : List Cell} (env : Env k), (∀ l ∈ ls, l.slot < k) →
      p.CodeAt ip (ls.map fun l => .withOperand .stl l.slot.toUInt64) → cells.length < ls.length →
        Stops p d (A.machine ip cells env) .stackUnderflow env.printed
  | l :: ls, ip, [], env, _, hcode, _ =>
    ⟨0, _, .refl _, hd, step_stl_empty env hcode.1, rfl⟩
  | l :: ls, ip, c :: cells, env, hslots, hcode, hlt => by
    obtain ⟨hl, hls⟩ := List.forall_mem_cons.1 hslots
    exact (stops_prologue hd hk (env.write l.slot c) hls hcode.2 (Nat.lt_of_succ_lt_succ hlt)).of_steps
      (.step hd (step_stl hl hk hcode.1) (.refl _))

/-- **The arguments of a call are on the stack**, in all states that a run comes to. -/
theorem Tree.WellTyped.arguments_le (ht : t.WellTyped) (hfit : t.Fits)
    (hf : t.userFunctions[j]? = some f) {n : Nat}
    (hm : advance t.program .derived n (.boot t.program .derived) = .running m)
    (hi : Instruction.decode t.program.code m.ip = .ok i) (hop : i.opcode = .call)
    (hid : i.operand.toNat = j + 1) (hstep : step t.program .derived m = .ok (.next m₁)) :
    f.parameterTypes.length ≤ m.stack.cells.length := by
  by_contra hlt
  obtain ⟨o, hcode, -, rfl⟩ := ht.called hfit hf hi hop hid hstep
  have hmem := List.mem_of_getElem? hf
  obtain ⟨hlaid, -⟩ := ht.laidOut hmem
  have hlen := congrArg List.length hlaid.parameters.1
  rw [List.length_map, List.length_range] at hlen
  rw [Function.code_of_isUser (t.isUser_userFunctions f hmem)] at hcode
  obtain ⟨hcode, -⟩ := (codeAt_append _ _ _).1 ((codeAt_append _ _ _).1 hcode).1
  have hshort : m.stack.cells.length < (f.locals.filter Local.isParameter).reverse.length := by
    rw [List.length_reverse]
    omega
  have hstops := stops_prologue (A := Activation.above m.frames (m.ip + i.size)) (Nat.zero_le _)
    (hfit.locals f (List.mem_of_getElem? hf)) ⟨Vector.replicate f.locals.length 0, m.printed⟩
    (fun l hl => hlaid.placed.slot_lt (List.mem_filter.1 (List.mem_reverse.1 hl)).1) hcode hshort
  obtain ⟨k, hk⟩ := hstops.ended
  have hend : advance t.program .derived (n + (k + 1)) (.boot t.program .derived) =
      .ended ⟨String.join m.printed.reverse, some .stackUnderflow⟩ := by
    rw [advance_add, hm]
    simp only [advance, hstep]
    exact hk
  cases hfirst : t.userFunctions with
  | nil =>
    rw [hfirst] at hf
    cases hf
  | cons first others =>
    by_cases hnone : first.parameterTypes = []
    · exact (ht.fault_of_ended hfit hfirst hnone hend rfl).2 rfl
    · cases n with
      | zero =>
        cases hm
        cases hstep.symm.trans (ht.boot_underflow hfit hfirst hnone)
      | succ n => cases hm.symm.trans (ht.advance_underflow hfit hfirst hnone n)

end

/-- **Calls are disciplined.**  Whenever a run of a compiled program calls a function
    with a body, its arguments are on the stack.  If the call returns, the run
    goes on behind it, with one value in place of the arguments and with all
    frames as they were when it was made: their number, and the locals of the
    caller and of its callers. -/
theorem call_discipline {source : String} {p : Program} {f : Function} {i : Instruction}
    {m m₁ : Machine} (h : compile source = .ok p) (hfit : (Analysis.ofSource source).tree.Fits)
    (hm : ∃ n, advance p .derived n (.boot p .derived) = .running m)
    (hi : Instruction.decode p.code m.ip = .ok i) (hop : i.opcode = .call)
    (hf : f ∈ (Analysis.ofSource source).tree.userFunctions)
    (hid : f.symbol? = some i.operand.toNat) (hstep : step p .derived m = .ok (.next m₁)) :
    ∃ arguments cells, m.stack.cells = arguments ++ cells ∧
      arguments.length = f.pattern.parameters.length ∧
      ∀ m₂, p.ReturnsTo m.frames.depth m₁ m₂ →
        m₂.ip = m.ip + i.size ∧ (∃ v, m₂.stack.cells = v :: cells) ∧ m₂.frames = m.frames := by
  obtain ⟨ht, rfl, -⟩ := wellTyped_of_compile h
  obtain ⟨n, hm⟩ := hm
  obtain ⟨j, hid, hj⟩ := ht.getElem?_of_symbol? (List.mem_filter.1 hf).1 hid
  have hle := ht.arguments_le hfit hj hm hi hop hid hstep
  have hcells := (List.take_append_drop f.parameterTypes.length m.stack.cells).symm
  have hlen : (m.stack.cells.take f.parameterTypes.length).length = f.parameterTypes.length := by
    rw [List.length_take, Nat.min_eq_left hle]
  refine ⟨_, _, hcells, hlen.trans (ht.length_parameterTypes hf), fun m₂ hret => ?_⟩
  exact ht.call_returns hfit hj hi hop hid hlen hcells hstep hret

/-- The second function of the sample, called from the first. -/
def sampleCall (ip : Nat) (cells : List Cell) (x : Cell) : Machine :=
  (Activation.above (.entry 0) 4).machine ip cells ⟨#v[x], []⟩

theorem call_sample_disciplined : ∃ m₂, sampleProgram.ReturnsTo 1 (sampleCall 13 [2] 0) m₂ ∧
    m₂.ip = 4 ∧ m₂.stack.cells = [2] ∧ m₂.frames = .entry 0 := by
  obtain ⟨f, g, hfunctions, -, hid, -⟩ := userFunctions_sample
  have hg : g ∈ (Analysis.ofSource sampleSource).tree.userFunctions := by
    rw [hfunctions]
    exact List.mem_cons_of_mem f List.mem_cons_self
  have hm : advance sampleProgram .derived 1 (.boot sampleProgram .derived) =
      .running ⟨2, .ofCells [2], .entry 0, []⟩ := rfl
  have hi : Instruction.decode sampleProgram.code 2 = .ok (.withOperand .call 2) := rfl
  have hcall : step sampleProgram .derived ⟨2, .ofCells [2], .entry 0, []⟩ =
      .ok (.next (sampleCall 13 [2] 0)) := rfl
  have hstore : step sampleProgram .derived (sampleCall 13 [2] 0) = .ok (.next (sampleCall 15 [] 2)) :=
    rfl
  have hload : step sampleProgram .derived (sampleCall 15 [] 2) = .ok (.next (sampleCall 17 [2] 2)) :=
    rfl
  have hret : step sampleProgram .derived (sampleCall 17 [2] 2) =
      .ok (.next ⟨4, .ofCells [2], .entry 0, []⟩) := rfl
  have hreturns := Program.ReturnsTo.of_steps
    (.step (Nat.le_refl 2) hstore (.step (Nat.le_refl 2) hload (.step (Nat.le_refl 2) hret (.refl _))))
    (Nat.le_refl 1)
  obtain ⟨arguments, cells, hcells, hlen, hdisciplined⟩ :=
    call_discipline compile_sample fits_sample ⟨1, hm⟩ hi rfl hg hid hcall
  obtain ⟨hip, -, hframes⟩ := hdisciplined _ hreturns
  exact ⟨_, hreturns, hip, rfl, hframes⟩

end DanishProse

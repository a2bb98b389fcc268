/-
  Two machines that carry out the same instruction.

  * `Both R x y`: two results are the same fault, or values that `R` relates;
  * `Machine.Related P F`: machines with the same stack and the same output, at places
    that `P` relates, with frames that `F` relates;
  * `Instruction.Respects`: what an instruction asks of related frames.  Then it does
    the same in both machines (`execute_related`); branches and calls may go to
    places that are related (`execute_branch_related`, `callSymbol_related`).
-/
import Mathlib.Tactic.Common
import DanishProse.Proofs.Activation

namespace DanishProse

/-! ## Results that agree -/

/-- Both are the same fault, or both are values that are related. -/
inductive Both {α β : Type} (R : α → β → Prop) : Except Fault α → Except Fault β → Prop
  | error (fault : Fault) : Both R (.error fault) (.error fault)
  | ok {a : α} {b : β} : R a b → Both R (.ok a) (.ok b)

theorem Both.same {α : Type} (x : Except Fault α) : Both Eq x x := by
  cases x with
  | error fault => exact .error fault
  | ok a => exact .ok rfl

theorem Both.bind {α β γ δ : Type} {R : α → β → Prop} {S : γ → δ → Prop} {x : Except Fault α}
    {y : Except Fault β} {f : α → Except Fault γ} {g : β → Except Fault δ} (h : Both R x y)
    (hf : ∀ a b, R a b → Both S (f a) (g b)) : Both S (x >>= f) (y >>= g) := by
  cases h with
  | error fault => exact .error fault
  | ok hab => exact hf _ _ hab

theorem Both.imp {α β : Type} {R S : α → β → Prop} {x : Except Fault α} {y : Except Fault β}
    (h : Both R x y) (hRS : ∀ a b, R a b → S a b) : Both S x y := by
  cases h with
  | error fault => exact .error fault
  | ok hab => exact .ok (hRS _ _ hab)

/-! ## Machines that are related -/

/-- Machines with the same stack and the same output, at places and with frames that are
    related. -/
structure Machine.Related (P : Nat → Nat → Prop) (F : CallStack → CallStack → Prop) (m m' : Machine) :
    Prop where
  ip : P m.ip m'.ip
  stack : m'.stack = m.stack
  frames : F m.frames m'.frames
  printed : m'.printed = m.printed

/-- Both go on, or both halt with the same stack and the same output. -/
inductive Effect.Related (P : Nat → Nat → Prop) (F : CallStack → CallStack → Prop) : Effect → Effect → Prop
  | next {m m' : Machine} : m.Related P F m' → Effect.Related P F (.next m) (.next m')
  | halt {m m' : Machine} : m'.stack = m.stack → m'.printed = m.printed →
      Effect.Related P F (.halt m) (.halt m')

/-- An instruction does the same to the frames of both machines, and leaves them related. -/
structure Instruction.Respects (i : Instruction) (P : Nat → Nat → Prop)
    (F : CallStack → CallStack → Prop) (m m' : Machine) : Prop where
  load : i.opcode = .ldl → Both Eq (m.frames.load i.operand.toNat) (m'.frames.load i.operand.toNat)
  store : i.opcode = .stl → ∀ c rest, m.stack.cells = c :: rest →
    Both F (m.frames.store i.operand.toNat c) (m'.frames.store i.operand.toNat c)
  pop : i.opcode = .ret → Option.Rel (fun a b => Option.Rel P a.1.returnOffset b.1.returnOffset ∧ F a.2 b.2)
    m.frames.pop m'.frames.pop

section
variable {P : Nat → Nat → Prop} {F : CallStack → CallStack → Prop} {p q : Program}
  {layout layout' : FrameLayout} {m m' : Machine}

/-- **An instruction that respects the relation keeps machines related**, or stops both with one
    fault. -/
theorem execute_related {i : Instruction} (hcall : i.opcode ≠ .call) (hbr : i.opcode ≠ .br)
    (h : m.Related P F m') (hi : i.Respects P F m m')
    (hnext : i.opcode ≠ .ret → P (m.ip + i.size) (m'.ip + i.size)) :
    Both (Effect.Related P F) (execute p layout i m) (execute q layout' i m') := by
  obtain ⟨ip, stack, frames, printed⟩ := m
  obtain ⟨ip', stack', frames', printed'⟩ := m'
  obtain ⟨-, rfl, hframes, rfl⟩ := h
  obtain ⟨op, v, w⟩ := i
  dsimp only at hcall hbr hnext hframes
  cases hop : op.onStack? stack' with
  | some result =>
    have hret : op ≠ .ret := by
      rintro rfl
      cases hop
    rw [execute_onStack (i := ⟨op, v, w⟩) (m := ⟨ip, stack', frames, printed'⟩) hop,
      execute_onStack (i := ⟨op, v, w⟩) (m := ⟨ip', stack', frames', printed'⟩) hop]
    refine (Both.same result).bind fun s _ hs => ?_
    subst hs
    exact .ok (.next ⟨hnext hret, rfl, hframes, rfl⟩)
  | none =>
    cases op with
    | ldi =>
      refine (Both.same (stack'.push v)).bind fun s _ hs => ?_
      subst hs
      exact .ok (.next ⟨hnext (show OpCode.ldi ≠ .ret by decide), rfl, hframes, rfl⟩)
    | ldl =>
      refine (hi.load rfl).bind fun c _ hc => ?_
      subst hc
      refine (Both.same (stack'.push c)).bind fun s _ hs => ?_
      subst hs
      exact .ok (.next ⟨hnext (show OpCode.ldl ≠ .ret by decide), rfl, hframes, rfl⟩)
    | stl =>
      simp only [execute]
      cases hpop : stack'.pop with
      | error fault => exact .error fault
      | ok popped =>
        refine (hi.store rfl popped.1 _ (Stack.pop_eq_ok_iff.1 hpop)).bind fun s s' hs => ?_
        exact .ok (.next ⟨hnext (show OpCode.stl ≠ .ret by decide), rfl, hs, rfl⟩)
    | ret =>
      have hpop := hi.pop rfl
      simp only [execute]
      dsimp only at hpop
      cases hs : frames.pop <;> cases hs' : frames'.pop <;> rw [hs, hs'] at hpop <;> cases hpop
      · exact .ok (.halt rfl rfl)
      · next popped popped' hpopped =>
        obtain ⟨frame, rest⟩ := popped
        obtain ⟨frame', rest'⟩ := popped'
        obtain ⟨hoffset, hrest⟩ := hpopped
        dsimp only at hoffset ⊢
        cases ho : frame.returnOffset <;> cases ho' : frame'.returnOffset <;> rw [ho, ho'] at hoffset <;>
          cases hoffset
        · exact .ok (.halt rfl rfl)
        · next hoffset => exact .ok (.next ⟨hoffset, rfl, hrest, rfl⟩)
    | call => exact absurd rfl hcall
    | br => exact absurd rfl hbr
    | _ => cases hop

/-- Branches to places that are related. -/
theorem execute_branch_related {v v' : UInt64} {w w' : Width} (h : m.Related P F m')
    (hnext : P (m.ip + Instruction.size ⟨.br, v, w⟩) (m'.ip + Instruction.size ⟨.br, v', w'⟩))
    (htarget : P v.toNat v'.toNat) :
    Both (Effect.Related P F) (execute p layout ⟨.br, v, w⟩ m) (execute q layout' ⟨.br, v', w'⟩ m') := by
  obtain ⟨ip, stack, frames, printed⟩ := m
  obtain ⟨ip', stack', frames', printed'⟩ := m'
  obtain ⟨-, rfl, hframes, rfl⟩ := h
  refine (Both.same stack'.pop).bind fun popped _ hpopped => ?_
  subst hpopped
  refine .ok (.next ⟨?_, rfl, hframes, rfl⟩)
  dsimp only
  split_ifs
  · exact htarget
  · exact hnext

/-- Calls the same function outside the program. -/
theorem callSymbol_native_related {v v' : UInt64} {f : Native} (hv : v.toNat = f.id) (hv' : v'.toNat = f.id)
    (h : m.Related P F m') :
    Both (Effect.Related P F) (callSymbol p layout v m) (callSymbol q layout' v' m') := by
  obtain ⟨ip, stack, frames, printed⟩ := m
  obtain ⟨ip', stack', frames', printed'⟩ := m'
  obtain ⟨hip, rfl, hframes, rfl⟩ := h
  have hf : Native.ofId? f.id = some f := Native.ofId?_eq_some_iff.2 rfl
  simp only [callSymbol, hv, hv', hf]
  refine (Both.same stack'.pop).bind fun popped _ hpopped => ?_
  subst hpopped
  refine (Both.same (popped.2.push 0)).bind fun s _ hs => ?_
  subst hs
  exact .ok (.next ⟨hip, rfl, hframes, rfl⟩)

/-- Calls functions at places that are related. -/
theorem callSymbol_related {v v' : UInt64} {s s' : Symbol} (hv : Native.ofId? v.toNat = none)
    (hv' : Native.ofId? v'.toNat = none) (hs : p.callee? v.toNat = some s)
    (hs' : q.callee? v'.toNat = some s') (hoffset : P s.offset s'.offset) (h : m.Related P F m')
    (hpush : Both F (m.frames.push (layout.room s.size) m.ip) (m'.frames.push (layout'.room s'.size) m'.ip)) :
    Both (Effect.Related P F) (callSymbol p layout v m) (callSymbol q layout' v' m') := by
  obtain ⟨ip, stack, frames, printed⟩ := m
  obtain ⟨ip', stack', frames', printed'⟩ := m'
  obtain ⟨-, rfl, -, rfl⟩ := h
  simp only [callSymbol, hv, hv', hs, hs']
  refine hpush.bind fun pushed pushed' hpushed => ?_
  exact .ok (.next ⟨hoffset, rfl, hpushed, rfl⟩)

end

end DanishProse

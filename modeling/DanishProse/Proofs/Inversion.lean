/-
  What a step that goes on has done.

  For each instruction there is a lemma on the machine after it (`next_ldi` and its
  like), for any program and any layout of frames: where it goes on, what has
  become of the stack and of the frames, and what was printed.  What they say of
  frames is in terms of calls on the call stack, which are taken apart in the same
  way (`CallStack.store_eq_ok` and its like).
-/
import Mathlib.Tactic.Common
import DanishProse.Proofs.Activation

namespace DanishProse

theorem exists_of_bind_eq_ok {ε α β : Type} {x : Except ε α} {f : α → Except ε β} {b : β}
    (h : x >>= f = .ok b) : ∃ a, x = .ok a ∧ f a = .ok b := by
  cases x with
  | error e => cases h
  | ok a => exact ⟨a, rfl, h⟩

/-! ## Frames -/

namespace CallStack
variable {s s' : CallStack}

theorem load_eq_ok {slot : Nat} {c : Cell} (h : s.load slot = .ok c) :
    slot * 8 + 8 ≤ s.current.size ∧ c = s.slots.getD (s.current.base + slot) 0 := by
  unfold load at h
  split_ifs at h with hin
  exact ⟨hin, (Except.ok.inj h).symm⟩

theorem store_eq_ok {slot : Nat} {c : Cell} (h : s.store slot c = .ok s') :
    slot * 8 + 8 ≤ s.current.size ∧ s'.current = s.current ∧ s'.outer = s.outer ∧
      s'.slots = s.slots.setIfInBounds (s.current.base + slot) c := by
  unfold store at h
  split_ifs at h with hin
  obtain ⟨current, outer, depth, slots, hdepth⟩ := s
  cases h
  exact ⟨hin, rfl, rfl, rfl⟩

theorem push_eq_ok {size returnOffset : Nat} (h : s.push size returnOffset = .ok s') :
    s'.current = ⟨s.slots.size, size, some returnOffset⟩ ∧ s'.outer = s.current :: s.outer ∧
      s'.slots = s.slots ++ Array.replicate (slotCount size) 0 := by
  unfold push at h
  split_ifs at h
  obtain ⟨current, outer, depth, slots, hdepth⟩ := s
  cases h
  exact ⟨rfl, rfl, rfl⟩

theorem pop_eq_some {frame : Frame} (h : s.pop = some (frame, s')) :
    frame = s.current ∧ s.outer = s'.current :: s'.outer ∧
      s'.slots = s.slots.shrink s.current.base := by
  obtain ⟨current, _ | ⟨caller, outer⟩, depth, slots, hdepth⟩ := s
  · cases h
  · cases h
    exact ⟨rfl, rfl, rfl⟩

end CallStack

/-! ## Instructions -/

section
variable {p : Program} {layout : FrameLayout} {m m' : Machine} {v : UInt64} {w : Width}

theorem next_ldi (h : execute p layout ⟨.ldi, v, w⟩ m = .ok (.next m')) :
    m'.ip = m.ip + Instruction.size ⟨.ldi, v, w⟩ ∧ m'.stack.cells = v :: m.stack.cells ∧
      m'.frames = m.frames ∧ m'.printed = m.printed := by
  obtain ⟨stack, hpush, hm⟩ := exists_of_bind_eq_ok h
  cases hm
  exact ⟨rfl, (Stack.push_eq_ok_iff.1 hpush).2, rfl, rfl⟩

theorem next_ldl (h : execute p layout ⟨.ldl, v, w⟩ m = .ok (.next m')) :
    ∃ c, m.frames.load v.toNat = .ok c ∧ m'.ip = m.ip + Instruction.size ⟨.ldl, v, w⟩ ∧
      m'.stack.cells = c :: m.stack.cells ∧ m'.frames = m.frames ∧ m'.printed = m.printed := by
  obtain ⟨c, hload, hm⟩ := exists_of_bind_eq_ok h
  obtain ⟨stack, hpush, hm⟩ := exists_of_bind_eq_ok hm
  cases hm
  exact ⟨c, hload, rfl, (Stack.push_eq_ok_iff.1 hpush).2, rfl, rfl⟩

theorem next_stl (h : execute p layout ⟨.stl, v, w⟩ m = .ok (.next m')) :
    ∃ c, m.stack.cells = c :: m'.stack.cells ∧ m.frames.store v.toNat c = .ok m'.frames ∧
      m'.ip = m.ip + Instruction.size ⟨.stl, v, w⟩ ∧ m'.printed = m.printed := by
  obtain ⟨⟨c, stack⟩, hpop, hm⟩ := exists_of_bind_eq_ok h
  obtain ⟨frames, hstore, hm⟩ := exists_of_bind_eq_ok hm
  cases hm
  exact ⟨c, Stack.pop_eq_ok_iff.1 hpop, hstore, rfl, rfl⟩

theorem next_br (h : execute p layout ⟨.br, v, w⟩ m = .ok (.next m')) :
    ∃ c, m.stack.cells = c :: m'.stack.cells ∧ m'.frames = m.frames ∧ m'.printed = m.printed ∧
      m'.ip = if c.isTrue then v.toNat else m.ip + Instruction.size ⟨.br, v, w⟩ := by
  obtain ⟨⟨c, stack⟩, hpop, hm⟩ := exists_of_bind_eq_ok h
  cases hm
  exact ⟨c, Stack.pop_eq_ok_iff.1 hpop, rfl, rfl, rfl⟩

theorem next_ret (h : execute p layout ⟨.ret, v, w⟩ m = .ok (.next m')) :
    m.frames.current.returnOffset = some m'.ip ∧ m'.stack = m.stack ∧
      m.frames.outer = m'.frames.current :: m'.frames.outer ∧
        m'.frames.slots = m.frames.slots.shrink m.frames.current.base ∧ m'.printed = m.printed := by
  obtain ⟨ip, stack, frames, printed⟩ := m
  simp only [execute] at h
  split at h
  · next frame frames' hpop =>
    obtain ⟨rfl, houter, hslots⟩ := CallStack.pop_eq_some hpop
    split at h
    · next offset hoffset =>
      cases h
      exact ⟨hoffset, rfl, houter, hslots, rfl⟩
    · cases h
  · cases h

theorem next_call (h : execute p layout ⟨.call, v, w⟩ m = .ok (.next m')) :
    (∃ g c rest, Native.ofId? v.toNat = some g ∧ m.stack.cells = c :: rest ∧
      m'.stack.cells = 0 :: rest ∧ m'.frames = m.frames ∧
        m'.ip = m.ip + Instruction.size ⟨.call, v, w⟩ ∧
          m'.printed = "\n" :: g.print c :: m.printed) ∨
    ∃ s, Native.ofId? v.toNat = none ∧ p.callee? v.toNat = some s ∧ m'.stack = m.stack ∧
      m'.ip = s.offset ∧ m'.printed = m.printed ∧
        m.frames.push (layout.room s.size) (m.ip + Instruction.size ⟨.call, v, w⟩) = .ok m'.frames := by
  obtain ⟨ip, stack, frames, printed⟩ := m
  rw [execute_call] at h
  simp only [callSymbol] at h
  split at h
  · next g hg =>
    obtain ⟨⟨c, stack'⟩, hpop, hm⟩ := exists_of_bind_eq_ok h
    obtain ⟨stack'', hpush, hm⟩ := exists_of_bind_eq_ok hm
    cases hm
    exact .inl ⟨g, c, stack'.cells, hg, Stack.pop_eq_ok_iff.1 hpop,
      (Stack.push_eq_ok_iff.1 hpush).2, rfl, rfl, rfl⟩
  · next hnone =>
    split at h
    · next s hs =>
      obtain ⟨frames', hpush, hm⟩ := exists_of_bind_eq_ok h
      cases hm
      exact .inr ⟨s, hnone, hs, rfl, rfl, rfl, hpush⟩
    · cases h

theorem next_onStack {i : Instruction} {result : Except Fault Stack}
    (hop : i.opcode.onStack? m.stack = some result) (h : execute p layout i m = .ok (.next m')) :
    result = .ok m'.stack ∧ m'.ip = m.ip + i.size ∧ m'.frames = m.frames ∧
      m'.printed = m.printed := by
  rw [execute_onStack hop] at h
  obtain ⟨stack, hresult, hm⟩ := exists_of_bind_eq_ok h
  cases hm
  exact ⟨hresult, rfl, rfl, rfl⟩

end

theorem Stack.cells_of_pop {s s' : Stack} (h : s.pop.map Prod.snd = .ok s') :
    ∃ c, s.cells = c :: s'.cells := by
  cases hpop : s.pop with
  | error e =>
    rw [hpop] at h
    cases h
  | ok r =>
    obtain ⟨c, rest⟩ := r
    rw [hpop] at h
    obtain rfl : rest = s' := Except.ok.inj h
    exact ⟨c, Stack.pop_eq_ok_iff.1 hpop⟩

theorem Stack.cells_of_dup {s s' : Stack} (h : s.peek.bind s.push = .ok s') :
    ∃ c rest, s.cells = c :: rest ∧ s'.cells = c :: s.cells := by
  unfold Stack.peek at h
  split at h
  · cases h
  · next c rest hcells => exact ⟨c, rest, hcells, (Stack.push_eq_ok_iff.1 h).2⟩

end DanishProse

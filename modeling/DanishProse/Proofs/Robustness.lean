/-
  The machine with any code.

  Nothing is asked of the program here: its code may be any bytes, its branches may lead
  into the middle of instructions, and its symbols may have any offset and any size.

  * `step?` is a machine that gives up as soon as it would read a byte of the code, or
    read or write a slot, that is not there.  While the frames lie tight in their slots
    it does not give up (`CallStack.Tight.step?_eq`);
  * `Instruction.Leaves` says what an instruction leaves behind: where it goes on, and
    what has become of the frames, the output and the stack;
  * `Machine.Robust` is what every machine keeps to that a run comes to: the stack and
    the frames are within their bounds, the frames lie tight, and only the one at the
    bottom does not return (`Machine.Robust.execute`, `Machine.Robust.advance`);
  * `Program.EndsAs` says why a run ends, and `run_robust` puts these together.
-/
import Mathlib.Tactic.Common
import DanishProse.Proofs.Isolation

namespace DanishProse

/-! ## Accesses that are checked -/

/-- The value of `n` bytes from an offset on, if they are there. -/
def valueAt? (code : Array UInt8) (offset : Nat) : Nat → Option UInt64
  | 0 => some 0
  | n + 1 => do
    let low ← code[offset]?
    let high ← valueAt? code (offset + 1) n
    return low.toUInt64 ||| (high <<< 8)

/-- The instruction at an offset; nothing if an operand is read that is not there. -/
def Instruction.decode? (code : Array UInt8) (offset : Nat) : Option (Except DecodeError Instruction) :=
  match code[offset]? with
  | none => some (.error (.truncated offset))
  | some lead =>
    match OpCode.ofByte? (lead &&& 0x3f) with
    | none => some (.error (.unknownOpCode (lead &&& 0x3f)))
    | some op =>
      let selector := lead >>> 6
      if op.hasOperand then
        let width := Width.ofSelector selector
        if offset + 1 + width.bytes ≤ code.size then do
          let operand ← valueAt? code (offset + 1) width.bytes
          return .ok ⟨op, operand, width⟩
        else some (.error (.truncated offset))
      else if selector = 0 then some (.ok (.plain op))
      else some (.error (.unexpectedWidth op selector))

namespace CallStack

/-- The value of a local; nothing if its slot is not there. -/
def load? (s : CallStack) (slot : Nat) : Option (Except Fault Cell) :=
  if s.inFrame slot then s.slots[s.current.base + slot]?.map .ok
  else some (.error (.localOutOfFrame slot s.current.size))

/-- Gives a local a value; nothing if its slot is not there. -/
def store? (s : CallStack) (slot : Nat) (value : Cell) : Option (Except Fault CallStack) :=
  if s.inFrame slot then
    match s with
    | ⟨current, outer, depth, slots, h⟩ =>
      if hslot : current.base + slot < slots.size then
        some (.ok ⟨current, outer, depth, slots.set (current.base + slot) value hslot, h⟩)
      else none
  else some (.error (.localOutOfFrame slot s.current.size))

end CallStack

/-- Carries out an instruction; nothing if it uses a slot that is not there. -/
def execute? (p : Program) (layout : FrameLayout) (i : Instruction) (m : Machine) :
    Option (Except Fault Effect) :=
  match i.opcode with
  | .ldl => do
    let value ← m.frames.load? i.operand.toNat
    return do
      let stack ← m.stack.push (← value)
      return .next { m with ip := m.ip + i.size, stack }
  | .stl =>
    match m.stack.pop with
    | .error fault => some (.error fault)
    | .ok (value, stack) => do
      let frames ← m.frames.store? i.operand.toNat value
      return do return .next { m with ip := m.ip + i.size, stack, frames := ← frames }
  | _ => some (execute p layout i m)

/-- Reads the next instruction and carries it out; nothing if an access is out of bounds. -/
def step? (p : Program) (layout : FrameLayout) (m : Machine) : Option (Except Fault Effect) := do
  match ← Instruction.decode? p.code m.ip with
  | .error e => return .error (.decode m.ip e)
  | .ok i => execute? p layout i m

/-- The bytes of a value are there. -/
theorem valueAt?_eq (code : Array UInt8) (n : Nat) :
    ∀ {offset : Nat}, offset + n ≤ code.size → valueAt? code offset n = some (valueAt code offset n) := by
  induction n with
  | zero => exact fun _ => rfl
  | succ n ih =>
    intro offset h
    have hlt : offset < code.size := by omega
    have hlow : code[offset]? = some (code.getD offset 0) := by
      rw [Array.getD_eq_getD_getElem?, Array.getElem?_eq_getElem hlt, Option.getD_some]
    rw [valueAt?, valueAt, hlow, ih (by omega)]
    rfl

/-- **No byte is read that is not there.** -/
theorem Instruction.decode?_eq (code : Array UInt8) (offset : Nat) :
    decode? code offset = some (decode code offset) := by
  unfold decode? decode
  cases code[offset]? with
  | none => rfl
  | some lead =>
    dsimp only
    cases OpCode.ofByte? (lead &&& 0x3f) with
    | none => rfl
    | some op =>
      dsimp only
      split_ifs with hop hend
      · rw [valueAt?_eq code _ hend]
        rfl
      all_goals rfl

/-- Where an instruction is read there is code. -/
theorem Instruction.isEmpty_of_decode {code : Array UInt8} {offset : Nat} {i : Instruction}
    (h : decode code offset = .ok i) : code.isEmpty = false := by
  have hend := end_le_of_decode h
  have hpos := i.size_pos
  rw [Array.isEmpty_eq_false_iff, ← Array.size_pos_iff]
  omega

namespace CallStack
variable {s : CallStack}

theorem Tight.load?_eq (h : s.Tight) (slot : Nat) : s.load? slot = some (s.load slot) := by
  unfold load? CallStack.load
  split_ifs with hin
  · have hlt := h.inBounds hin
    rw [Array.getD_eq_getD_getElem?, Array.getElem?_eq_getElem hlt]
    rfl
  · rfl

theorem Tight.store?_eq (h : s.Tight) (slot : Nat) (value : Cell) :
    s.store? slot value = some (s.store slot value) := by
  unfold store? CallStack.store
  split_ifs with hin
  · have hlt := h.inBounds hin
    obtain ⟨current, outer, depth, slots, hdepth⟩ := s
    dsimp only at hlt ⊢
    rw [dif_pos hlt, Array.setIfInBounds, dif_pos hlt]
  · rfl

end CallStack

/-- **An instruction uses no slot that is not there**, if the frames lie tight. -/
theorem CallStack.Tight.execute?_eq {m : Machine} (h : m.frames.Tight) (p : Program)
    (layout : FrameLayout) (i : Instruction) : execute? p layout i m = some (execute p layout i m) := by
  obtain ⟨op, v, w⟩ := i
  cases op with
  | ldl =>
    simp only [execute?, execute]
    rw [h.load?_eq]
    rfl
  | stl =>
    simp only [execute?, execute]
    cases m.stack.pop with
    | error fault => rfl
    | ok popped =>
      dsimp only
      rw [h.store?_eq]
      rfl
  | _ => rfl

theorem CallStack.Tight.step?_eq {m : Machine} (h : m.frames.Tight) (p : Program)
    (layout : FrameLayout) : step? p layout m = some (step p layout m) := by
  unfold step? step
  rw [Instruction.decode?_eq]
  cases Instruction.decode p.code m.ip with
  | error e => rfl
  | ok i => exact h.execute?_eq p layout i

/-! ## What steps keep to -/

/-- Only the last of the frames does not return. -/
def LastStays (frames : List Frame) : Prop :=
  ∃ above bottom, frames = above ++ [bottom] ∧ bottom.returnOffset = none ∧
    ∀ f ∈ above, f.returnOffset ≠ none

/-- What a machine keeps to, whatever its code. -/
structure Machine.Robust (m : Machine) : Prop where
  /-- There is room for all cells. -/
  stack : m.stack.cells.length ≤ 0x100000
  /-- A frame is open, and there are not too many. -/
  depth : 1 ≤ m.frames.depth ∧ m.frames.depth ≤ 0x10000
  /-- The frames cover the slots, one behind the other. -/
  tight : Tight m.frames.slots.size (m.frames.current :: m.frames.outer)
  /-- All frames return but the one at the bottom. -/
  returns : LastStays (m.frames.current :: m.frames.outer)

section
variable {f : Frame} {fs : List Frame}

theorem LastStays.cons (h : LastStays fs) (hf : f.returnOffset ≠ none) : LastStays (f :: fs) := by
  obtain ⟨above, bottom, rfl, hbottom, habove⟩ := h
  exact ⟨f :: above, bottom, rfl, hbottom, List.forall_mem_cons.2 ⟨hf, habove⟩⟩

theorem LastStays.tail (h : LastStays (f :: fs)) (hne : fs ≠ []) : LastStays fs := by
  obtain ⟨_ | ⟨g, above⟩, bottom, heq, hbottom, habove⟩ := h
  · cases heq
    exact absurd rfl hne
  · cases heq
    exact ⟨above, bottom, rfl, hbottom, (List.forall_mem_cons.1 habove).2⟩

theorem LastStays.head_eq_none_iff (h : LastStays (f :: fs)) : f.returnOffset = none ↔ fs = [] := by
  obtain ⟨_ | ⟨g, above⟩, bottom, heq, hbottom, habove⟩ := h
  · cases heq
    exact iff_of_true hbottom rfl
  · cases heq
    exact iff_of_false (List.forall_mem_cons.1 habove).1 (by simp)

end

/-- The machine that an instruction leaves behind. -/
def Effect.machine : Effect → Machine
  | next m => m
  | halt m => m

/-! ### Stacks -/

namespace Stack
variable {s s' : Stack} {c : Cell}

theorem depth_le_of_push (h : s.push c = .ok s') : s'.depth ≤ capacity := by
  obtain ⟨hroom, hcells⟩ := push_eq_ok_iff.1 h
  rw [s'.depth_eq, hcells, List.length_cons, ← s.depth_eq]
  exact hroom

theorem depth_le_of_pop (h : s.pop = .ok (c, s')) : s'.depth ≤ s.depth := by
  rw [s.depth_eq, s'.depth_eq, pop_eq_ok_iff.1 h]
  exact Nat.le_succ _

theorem depth_le_of_unary {f : Cell → Cell} (h : s.unary f = .ok s') : s'.depth ≤ capacity := by
  obtain ⟨_, -, h⟩ := exists_of_bind_eq_ok h
  exact depth_le_of_push h

theorem depth_le_of_binary {f : Cell → Cell → Cell} (h : s.binary f = .ok s') : s'.depth ≤ capacity := by
  obtain ⟨_, -, h⟩ := exists_of_bind_eq_ok h
  obtain ⟨_, -, h⟩ := exists_of_bind_eq_ok h
  exact depth_le_of_push h

theorem depth_le_of_divide {f : Cell → Cell → Except Cell.DivisionError Cell}
    (h : s.divide f = .ok s') : s'.depth ≤ capacity := by
  obtain ⟨⟨b, s₁⟩, -, h⟩ := exists_of_bind_eq_ok h
  obtain ⟨⟨a, s₂⟩, -, h⟩ := exists_of_bind_eq_ok h
  dsimp only at h
  cases hf : f a b with
  | ok c =>
    rw [hf] at h
    exact depth_le_of_push h
  | error e =>
    rw [hf] at h
    cases h

/-- An operation leaves room for all cells. -/
theorem depth_le_of_onStack {op : OpCode} (hs : s.depth ≤ capacity)
    (h : op.onStack? s = some (.ok s')) : s'.depth ≤ capacity := by
  cases op
  case nop => cases h; exact hs
  case pop =>
    obtain ⟨c, hcells⟩ := cells_of_pop (Option.some.inj h)
    rw [s.depth_eq, hcells] at hs
    rw [s'.depth_eq]
    exact Nat.le_of_succ_le hs
  case dup =>
    obtain ⟨_, -, h⟩ := exists_of_bind_eq_ok (Option.some.inj h)
    exact depth_le_of_push h
  case not => exact depth_le_of_unary (Option.some.inj h)
  case i2f => exact depth_le_of_unary (Option.some.inj h)
  case f2i => exact depth_le_of_unary (Option.some.inj h)
  case udiv => exact depth_le_of_divide (Option.some.inj h)
  case idiv => exact depth_le_of_divide (Option.some.inj h)
  case ldi | ldl | stl | call | ret | br => cases h
  all_goals exact depth_le_of_binary (Option.some.inj h)

end Stack

/-! ### Frames -/

/-- The frames of a call stack lie tight, and only the last one does not return. -/
structure CallStack.Sound (s : CallStack) : Prop where
  tight : s.Tight
  returns : LastStays (s.current :: s.outer)

namespace CallStack
variable {s s' : CallStack}

theorem sound_entry (size : Nat) : (entry size).Sound :=
  ⟨tight_entry size, [], _, rfl, rfl, List.forall_mem_nil _⟩

theorem Sound.push (h : s.Sound) {size returnOffset : Nat} (hpush : s.push size returnOffset = .ok s') :
    s'.Sound := by
  refine ⟨h.tight.push hpush, ?_⟩
  obtain ⟨hcurrent, houter, -⟩ := push_eq_ok hpush
  rw [hcurrent, houter]
  exact h.returns.cons (Option.some_ne_none _)

theorem Sound.pop (h : s.Sound) {frame : Frame} (hpop : s.pop = some (frame, s')) : s'.Sound := by
  refine ⟨h.tight.pop hpop, ?_⟩
  obtain ⟨-, houter, -⟩ := pop_eq_some hpop
  have hreturns := h.returns
  rw [houter] at hreturns
  exact hreturns.tail (List.cons_ne_nil _ _)

theorem Sound.store (h : s.Sound) {slot : Nat} {c : Cell} (hstore : s.store slot c = .ok s') :
    s'.Sound := by
  refine ⟨h.tight.store hstore, ?_⟩
  obtain ⟨-, hcurrent, houter, -⟩ := store_eq_ok hstore
  rw [hcurrent, houter]
  exact h.returns

/-- A frame that is closed returns: the one that does not is never closed. -/
theorem Sound.returnOffset_of_pop (h : s.Sound) {frame : Frame} (hpop : s.pop = some (frame, s')) :
    frame.returnOffset ≠ none := by
  obtain ⟨rfl, houter, -⟩ := pop_eq_some hpop
  rw [ne_eq, h.returns.head_eq_none_iff, houter]
  exact List.cons_ne_nil _ _

theorem pop_eq_none_iff (s : CallStack) : s.pop = none ↔ s.depth = 1 := by
  obtain ⟨current, _ | ⟨caller, outer⟩, depth, slots, rfl⟩ := s
  · exact iff_of_true rfl rfl
  · exact iff_of_false (Option.some_ne_none _) (by simp)

end CallStack

/-! ### Instructions -/

/-- Where an instruction goes on, and what it does to the frames.  Only a `ret` may halt the
    machine. -/
inductive Instruction.Moves (p : Program) (layout : FrameLayout) (i : Instruction) (m : Machine) :
    Effect → Prop
  | next {m' : Machine} : i.opcode ≠ .ret → m'.ip = m.ip + i.size → m'.frames = m.frames →
      Moves p layout i m (.next m')
  | branch {m' : Machine} : i.opcode = .br → m'.ip = i.operand.toNat → m'.frames = m.frames →
      Moves p layout i m (.next m')
  | store {m' : Machine} {c : Cell} : i.opcode = .stl → m'.ip = m.ip + i.size →
      m.frames.store i.operand.toNat c = .ok m'.frames → Moves p layout i m (.next m')
  | call {m' : Machine} {s : Symbol} : i.opcode = .call → p.callee? i.operand.toNat = some s →
      m'.ip = s.offset → m.frames.push (layout.room s.size) (m.ip + i.size) = .ok m'.frames →
      Moves p layout i m (.next m')
  | ret {m' : Machine} {frame : Frame} : i.opcode = .ret → m.frames.pop = some (frame, m'.frames) →
      frame.returnOffset = some m'.ip → Moves p layout i m (.next m')
  | last {m' : Machine} : i.opcode = .ret → m.frames.pop = none → m'.frames = m.frames →
      Moves p layout i m (.halt m')
  | leave {m' : Machine} {frame : Frame} : i.opcode = .ret → m.frames.pop = some (frame, m'.frames) →
      frame.returnOffset = none → Moves p layout i m (.halt m')

/-- What is left behind by an instruction. -/
structure Instruction.Leaves (p : Program) (layout : FrameLayout) (i : Instruction) (m : Machine)
    (e : Effect) : Prop where
  moves : i.Moves p layout m e
  printed : m.printed <:+ e.machine.printed
  stack : m.stack.depth ≤ Stack.capacity → e.machine.stack.depth ≤ Stack.capacity

section
variable {p : Program} {layout : FrameLayout} {m : Machine} {i : Instruction} {e : Effect}

theorem callSymbol_leaves {v : UInt64} {w : Width}
    (h : callSymbol p layout v { m with ip := m.ip + Instruction.size ⟨.call, v, w⟩ } = .ok e) :
    Instruction.Leaves p layout ⟨.call, v, w⟩ m e := by
  obtain ⟨ip, stack, frames, printed⟩ := m
  simp only [callSymbol] at h
  split at h
  · obtain ⟨_, -, h⟩ := exists_of_bind_eq_ok h
    obtain ⟨stack', hpush, h⟩ := exists_of_bind_eq_ok h
    cases h
    have hret : OpCode.call ≠ .ret := by decide
    exact ⟨.next hret rfl rfl, ⟨["\n", _], rfl⟩, fun _ => Stack.depth_le_of_push hpush⟩
  · split at h
    · next s hs =>
      obtain ⟨frames', hpush, h⟩ := exists_of_bind_eq_ok h
      cases h
      exact ⟨.call rfl hs rfl hpush, List.suffix_refl _, id⟩
    · cases h

theorem exists_execute_of_step (h : step p layout m = .ok e) :
    ∃ i, Instruction.decode p.code m.ip = .ok i ∧ execute p layout i m = .ok e := by
  unfold step at h
  split at h
  · cases h
  · next i hi => exact ⟨i, hi, h⟩

/-- **What an instruction does**: where it goes on, and what it leaves of the frames, of the
    output and of the stack. -/
theorem execute_leaves (h : execute p layout i m = .ok e) : i.Leaves p layout m e := by
  cases hop : i.opcode.onStack? m.stack with
  | some result =>
    have hret : i.opcode ≠ .ret := by
      intro hret
      rw [hret] at hop
      cases hop
    rw [execute_onStack hop] at h
    obtain ⟨stack, rfl, h⟩ := exists_of_bind_eq_ok h
    cases h
    exact ⟨.next hret rfl rfl, List.suffix_refl _, fun hstack => Stack.depth_le_of_onStack hstack hop⟩
  | none =>
    obtain ⟨op, v, w⟩ := i
    obtain ⟨ip, stack, frames, printed⟩ := m
    cases op with
    | ldi =>
      obtain ⟨stack', hpush, h⟩ := exists_of_bind_eq_ok h
      cases h
      have hret : OpCode.ldi ≠ .ret := by decide
      exact ⟨.next hret rfl rfl, List.suffix_refl _, fun _ => Stack.depth_le_of_push hpush⟩
    | ldl =>
      obtain ⟨_, -, h⟩ := exists_of_bind_eq_ok h
      obtain ⟨stack', hpush, h⟩ := exists_of_bind_eq_ok h
      cases h
      have hret : OpCode.ldl ≠ .ret := by decide
      exact ⟨.next hret rfl rfl, List.suffix_refl _, fun _ => Stack.depth_le_of_push hpush⟩
    | stl =>
      obtain ⟨⟨c, stack'⟩, hpop, h⟩ := exists_of_bind_eq_ok h
      obtain ⟨frames', hstore, h⟩ := exists_of_bind_eq_ok h
      cases h
      exact ⟨.store rfl rfl hstore, List.suffix_refl _, Nat.le_trans (Stack.depth_le_of_pop hpop)⟩
    | br =>
      obtain ⟨⟨c, stack'⟩, hpop, h⟩ := exists_of_bind_eq_ok h
      cases h
      refine ⟨?_, List.suffix_refl _, Nat.le_trans (Stack.depth_le_of_pop hpop)⟩
      dsimp only
      split_ifs
      · exact .branch rfl rfl rfl
      · exact .next (show OpCode.br ≠ .ret by decide) rfl rfl
    | call =>
      rw [execute_call] at h
      exact callSymbol_leaves h
    | ret =>
      simp only [execute] at h
      split at h
      · next frame frames' hpop =>
        split at h
        · next offset hoffset =>
          cases h
          exact ⟨.ret rfl hpop hoffset, List.suffix_refl _, id⟩
        · next hoffset =>
          cases h
          exact ⟨.leave rfl hpop hoffset, List.suffix_refl _, id⟩
      · next hpop =>
        cases h
        exact ⟨.last rfl hpop rfl, List.suffix_refl _, id⟩
    | _ => cases hop

theorem Instruction.Moves.sound (h : i.Moves p layout m e) (hs : m.frames.Sound) :
    e.machine.frames.Sound := by
  cases h with
  | next _ _ hframes => exact hframes.symm ▸ hs
  | branch _ _ hframes => exact hframes.symm ▸ hs
  | store _ _ hstore => exact hs.store hstore
  | call _ _ _ hpush => exact hs.push hpush
  | ret _ hpop _ => exact hs.pop hpop
  | last _ _ hframes => exact hframes.symm ▸ hs
  | leave _ hpop _ => exact hs.pop hpop

/-- Only the `ret` of a function without a caller halts. -/
theorem Instruction.Moves.opcode_of_halt {m' : Machine} (h : i.Moves p layout m (.halt m'))
    (hs : m.frames.Sound) : i.opcode = .ret ∧ m.frames.depth = 1 := by
  cases h with
  | last hret hpop _ => exact ⟨hret, m.frames.pop_eq_none_iff.1 hpop⟩
  | leave _ hpop hnone => exact absurd hnone (hs.returnOffset_of_pop hpop)

end

/-! ### Machines -/

namespace Machine.Robust
variable {p : Program} {layout : FrameLayout} {m : Machine} {i : Instruction} {e : Effect}

theorem of_sound (hstack : m.stack.depth ≤ Stack.capacity) (hframes : m.frames.Sound) : m.Robust where
  stack := m.stack.depth_eq ▸ hstack
  depth := ⟨m.frames.depth_eq ▸ Nat.succ_pos _, hframes.tight.room⟩
  tight := hframes.tight.frames
  returns := hframes.returns

theorem sound (h : m.Robust) : m.frames.Sound :=
  ⟨⟨h.tight, h.depth.2⟩, h.returns⟩

theorem depth_le (h : m.Robust) : m.stack.depth ≤ Stack.capacity :=
  m.stack.depth_eq ▸ h.stack

theorem boot (p : Program) (layout : FrameLayout) : (Machine.boot p layout).Robust :=
  of_sound (Nat.zero_le _) (CallStack.sound_entry _)

/-- **An instruction leaves a robust machine behind**, whether it goes on or halts. -/
theorem execute (h : m.Robust) (he : execute p layout i m = .ok e) : e.machine.Robust := by
  have hleaves := execute_leaves he
  exact of_sound (hleaves.stack h.depth_le) (hleaves.moves.sound h.sound)

theorem step (h : m.Robust) (he : step p layout m = .ok e) : e.machine.Robust := by
  obtain ⟨i, -, he⟩ := exists_execute_of_step he
  exact h.execute he

/-- **So does any number of instructions.** -/
theorem advance {n : Nat} {m' : Machine} (h : m.Robust) (hrun : advance p layout n m = .running m') :
    m'.Robust :=
  advance_keeps (fun _ _ h => h.step) h hrun

end Machine.Robust

/-! ## Halting -/

/-- The next instruction is the `ret` of the function that the machine began with. -/
def Machine.AtLastReturn (p : Program) (m : Machine) : Prop :=
  ∃ i, Instruction.decode p.code m.ip = .ok i ∧ i.opcode = .ret ∧ m.frames.depth = 1

section
variable {p : Program} {layout : FrameLayout} {m : Machine}

/-- A `ret` without a caller halts. -/
theorem execute_last {i : Instruction} (hret : i.opcode = .ret) (hdepth : m.frames.depth = 1) :
    ∃ m', execute p layout i m = .ok (.halt m') := by
  obtain ⟨op, v, w⟩ := i
  obtain ⟨ip, stack, frames, printed⟩ := m
  change op = .ret at hret
  subst hret
  have hpop := frames.pop_eq_none_iff.2 hdepth
  simp only [execute]
  rw [hpop]
  exact ⟨_, rfl⟩

/-- **A machine halts just at the `ret` of the function that it began with.** -/
theorem Machine.Robust.halts_iff (h : m.Robust) :
    (∃ m', DanishProse.step p layout m = .ok (.halt m')) ↔ m.AtLastReturn p := by
  unfold DanishProse.step Machine.AtLastReturn
  cases Instruction.decode p.code m.ip with
  | error e =>
    refine iff_of_false ?_ ?_
    · rintro ⟨_, ⟨⟩⟩
    · rintro ⟨_, ⟨⟩, _⟩
  | ok i =>
    constructor
    · rintro ⟨m', hm'⟩
      exact ⟨i, rfl, (execute_leaves hm').moves.opcode_of_halt h.sound⟩
    · rintro ⟨i', hi', hret, hdepth⟩
      cases hi'
      exact execute_last hret hdepth

end

/-! ## Runs -/

/-- Why a run ends as it does. -/
inductive Program.EndsAs (p : Program) (settings : Settings) : RunResult → Prop
  /-- There is nothing to run. -/
  | empty : p.code = #[] → EndsAs p settings ⟨"", some .noEntryPoint⟩
  /-- A machine halts. -/
  | halted {n : Nat} {m m' : Machine} : n < settings.steps →
      advance p settings.layout n (.boot p settings.layout) = .running m →
      step p settings.layout m = .ok (.halt m') → EndsAs p settings m'.result
  /-- An instruction cannot be carried out. -/
  | stopped {n : Nat} {m : Machine} {fault : Fault} : n < settings.steps →
      advance p settings.layout n (.boot p settings.layout) = .running m →
      step p settings.layout m = .error fault → EndsAs p settings ⟨m.output, some fault⟩
  /-- No more instructions may be carried out. -/
  | limit {m : Machine} :
      advance p settings.layout settings.steps (.boot p settings.layout) = .running m →
      EndsAs p settings ⟨m.output, some (.stepLimit settings.steps)⟩

theorem Program.endsAs_run (p : Program) (settings : Settings) : p.EndsAs settings (p.run settings) := by
  unfold run
  split_ifs with hcode
  · exact .empty (Array.isEmpty_iff.1 hcode)
  · cases hrun : advance p settings.layout settings.steps (.boot p settings.layout) with
    | running m => exact .limit hrun
    | ended r =>
      obtain ⟨k, m, hk, hm, ⟨m', hstep, rfl⟩ | ⟨fault, hstep, rfl⟩⟩ := exists_last_of_ended hrun
      · exact .halted hk hm hstep
      · exact .stopped hk hm hstep

/-- A run has no fault just if a machine comes to its last `ret` within the limit. -/
theorem Program.fault_eq_none_iff (p : Program) (settings : Settings) :
    (p.run settings).fault = none ↔ ∃ n m, n < settings.steps ∧
      advance p settings.layout n (.boot p settings.layout) = .running m ∧ m.AtLastReturn p := by
  have hrobust := Machine.Robust.boot p settings.layout
  constructor
  · intro hfault
    have hends := p.endsAs_run settings
    generalize p.run settings = r at hends hfault
    cases hends with
    | halted hn hm hstep => exact ⟨_, _, hn, hm, (hrobust.advance hm).halts_iff.1 ⟨_, hstep⟩⟩
    | empty => cases hfault
    | stopped => cases hfault
    | limit => cases hfault
  · rintro ⟨n, m, hn, hm, hlast⟩
    obtain ⟨m', hstep⟩ := (hrobust.advance hm).halts_iff.2 hlast
    have hend := advance_ended_of_le (advance_halted hm hstep) hn
    obtain ⟨i, hi, -⟩ := hlast
    rw [run, Instruction.isEmpty_of_decode hi, hend]
    rfl

/-- **The machine is safe with any code.**  Every machine that a run comes to is robust; no byte
    of the code and no slot is used that is not there; it halts just at the `ret` of the function
    that it began with, and every other end of the run is a fault. -/
theorem run_robust (p : Program) (settings : Settings) :
    (∀ n m, advance p settings.layout n (.boot p settings.layout) = .running m →
      m.Robust ∧ (∀ e, step p settings.layout m = .ok e → e.machine.Robust) ∧
        step? p settings.layout m = some (step p settings.layout m) ∧
          ((∃ m', step p settings.layout m = .ok (.halt m')) ↔ m.AtLastReturn p)) ∧
    ((p.run settings).fault = none ↔ ∃ n m, n < settings.steps ∧
      advance p settings.layout n (.boot p settings.layout) = .running m ∧ m.AtLastReturn p) ∧
    p.EndsAs settings (p.run settings) := by
  refine ⟨fun n m hm => ?_, p.fault_eq_none_iff settings, p.endsAs_run settings⟩
  have hrobust := (Machine.Robust.boot p settings.layout).advance hm
  exact ⟨hrobust, fun e => hrobust.step, hrobust.sound.tight.step?_eq p settings.layout, hrobust.halts_iff⟩

/-- A branch into the operand of an instruction, whose byte is a `ret`. -/
example : Program.run ⟨[], #[0x01, 0x1a, 0x1b, 0x01]⟩ ⟨.derived, some 3⟩ =
    ⟨"Invalid stack size on exit. Was 0 but expected 8.", none⟩ := rfl

end DanishProse

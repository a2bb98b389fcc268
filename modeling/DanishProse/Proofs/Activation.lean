/-
  The machine inside a call, instruction by instruction.

  * An `Activation` is what a call finds below its own locals: the frames of its
    callers with their slots, and where to go on.  `Activation.machine` is the
    machine inside the call, at an offset, with cells on the stack and an
    environment;
  * for each instruction there is a lemma on what the machine follows from there:
    `follows_ldi` and its like go on with the cells and the environment after it.
    They leave the activation alone, whatever the instruction does.
-/
import Mathlib.Tactic.Common
import DanishProse.Proofs.Layout
import DanishProse.Proofs.Steps

namespace DanishProse

/-! ## Stacks -/

/-- The stack of some cells, the top one first. -/
def Stack.ofCells (cells : List Cell) : Stack :=
  ⟨cells, cells.length, rfl⟩

/-- Puts the result of a division on the stack, if there is one. -/
def Stack.pushResult (s : Stack) : Except Cell.DivisionError Cell → Except Fault Stack
  | .ok c => s.push c
  | .error e => .error e.fault

namespace Stack
variable {c : Cell} {cells : List Cell}

theorem ofCells_cells (s : Stack) : ofCells s.cells = s :=
  ext rfl

theorem push_ofCells : (ofCells cells).push c =
    if cells.length < capacity then .ok (ofCells (c :: cells)) else .error .stackOverflow := rfl

theorem unary_ofCells (f : Cell → Cell) :
    (ofCells (c :: cells)).unary f = (ofCells cells).push (f c) := rfl

theorem binary_ofCells (f : Cell → Cell → Cell) (a b : Cell) :
    (ofCells (b :: a :: cells)).binary f = (ofCells cells).push (f a b) := rfl

theorem divide_ofCells (f : Cell → Cell → Except Cell.DivisionError Cell) (a b : Cell) :
    (ofCells (b :: a :: cells)).divide f = (ofCells cells).pushResult (f a b) := rfl

end Stack

/-- **An operation does on the stack what it means.** -/
theorem OpCode.onStack?_of_value? {op : OpCode} {arguments cells : List Cell}
    {r : Except Cell.DivisionError Cell} (h : op.value? arguments = some r) :
    op.onStack? (.ofCells (arguments.reverse ++ cells)) =
      some ((Stack.ofCells cells).pushResult r) := by
  unfold OpCode.value? at h
  split at h
  case h_22 => cases h
  all_goals
    obtain rfl := Option.some.inj h
    simp only [OpCode.onStack?, List.reverse_cons, List.reverse_nil, List.nil_append,
      List.cons_append, Stack.unary_ofCells, Stack.binary_ofCells, Stack.divide_ofCells,
      Cell.wrap_add, Cell.wrap_sub, Cell.wrap_mul, Cell.ofNat_mul, Cell.unsignedDiv_eq,
      Cell.signedDiv_eq_quotient, Cell.signedLess_eq, Cell.beq_eq, Stack.pushResult]

/-! ## Activations -/

theorem slotCount_eq (k : Nat) : slotCount (k * 8) = k := by
  unfold slotCount
  omega

/-- What a call finds below its own locals. -/
structure Activation where
  /-- Where the caller goes on; nowhere for the function that the machine began with. -/
  returnOffset : Option Nat
  outer : List Frame
  slots : Array Cell

/-- Nothing below the function that the machine began with. -/
def Activation.bottom : Activation :=
  ⟨none, [], #[]⟩

namespace Activation
variable (A : Activation) {k : Nat}

/-- The frames with the locals of the call on top. -/
def frames (locals : Vector Cell k) : CallStack :=
  ⟨⟨A.slots.size, k * 8, A.returnOffset⟩, A.outer, A.outer.length + 1, A.slots ++ locals.toArray, rfl⟩

/-- How many frames are open in the call. -/
def depth : Nat :=
  A.outer.length + 1

/-- The machine in the call. -/
def machine (ip : Nat) (cells : List Cell) (env : Env k) : Machine :=
  ⟨ip, .ofCells cells, A.frames env.locals, env.printed⟩

/-- A call from some frames. -/
def above (s : CallStack) (returnOffset : Nat) : Activation :=
  ⟨some returnOffset, s.current :: s.outer, s.slots⟩

theorem load_frames {locals : Vector Cell k} {slot : Nat} (h : slot < k) :
    (A.frames locals).load slot = .ok (locals[slot]?.getD 0) := by
  have hin : (A.frames locals).inFrame slot := by
    show slot * 8 + 8 ≤ k * 8
    omega
  rw [CallStack.load, if_pos hin]
  have hslot : (A.slots ++ locals.toArray)[A.slots.size + slot]? = locals[slot]? := by
    rw [Array.getElem?_append_right (Nat.le_add_right _ _), Nat.add_sub_cancel_left]
    simp
  show Except.ok ((A.slots ++ locals.toArray).getD (A.slots.size + slot) 0) = _
  rw [Array.getD_eq_getD_getElem?, hslot]

theorem store_frames {locals : Vector Cell k} {slot : Nat} (h : slot < k) (v : Cell) :
    (A.frames locals).store slot v = .ok (A.frames (locals.setIfInBounds slot v)) := by
  have hin : (A.frames locals).inFrame slot := by
    show slot * 8 + 8 ≤ k * 8
    omega
  have hslots : (A.slots ++ locals.toArray).setIfInBounds (A.slots.size + slot) v =
      A.slots ++ (locals.setIfInBounds slot v).toArray := by
    rw [Array.setIfInBounds_append_right (Nat.le_add_right _ _), Nat.add_sub_cancel_left]
    rfl
  rw [CallStack.store, if_pos hin]
  simp only [frames, hslots]

/-- The locals of a call that has just been made are zero. -/
theorem opened_eq_frames (s : CallStack) (k returnOffset : Nat) :
    s.opened (k * 8) returnOffset = (above s returnOffset).frames (Vector.replicate k 0) := by
  obtain ⟨current, outer, depth, slots, rfl⟩ := s
  simp only [CallStack.opened, frames, above, slotCount_eq]
  rfl

/-- Nothing is left of a call that has returned. -/
theorem pop_frames_over (s : CallStack) (returnOffset : Nat) (locals : Vector Cell k) :
    ((above s returnOffset).frames locals).pop = some (⟨s.slots.size, k * 8, some returnOffset⟩, s) := by
  obtain ⟨current, outer, depth, slots, rfl⟩ := s
  have hslots : (slots ++ locals.toArray).shrink slots.size = slots := by simp
  simp only [frames, above, CallStack.pop, hslots]
  rfl

theorem entry_eq_frames (k : Nat) :
    CallStack.entry (k * 8) = bottom.frames (Vector.replicate k 0) := by
  simp [CallStack.entry, bottom, frames, slotCount_eq]

end Activation

/-! ## Instructions -/

theorem step_of_decode {p : Program} {layout : FrameLayout} {i : Instruction} {m : Machine}
    (h : Instruction.decode p.code m.ip = .ok i) : step p layout m = execute p layout i m := by
  rw [step, h]

section
variable {p : Program} {d n : Nat} {α : Type} {Q : α → Machine → Prop} {r : Outcome α}
  {A : Activation} {k : Nat} {ip : Nat} {cells : List Cell} {env : Env k} {c : Cell}

/-- A cell goes on the stack, which may be full. -/
theorem follows_push {m : Machine} {ip' : Nat} (hd : d ≤ m.frames.depth)
    (hstep : step p .derived m = (do
      let stack ← (Stack.ofCells cells).push c
      return .next ⟨ip', stack, A.frames env.locals, env.printed⟩))
    (h : Follows p d n Q (A.machine ip' (c :: cells) env) r) : Follows p d n Q m r := by
  rw [Stack.push_ofCells] at hstep
  split_ifs at hstep
  · exact (h.step hd hstep).less (Nat.le_succ n)
  · exact .overflows hd rfl hstep

theorem follows_ldi (hd : d ≤ A.depth) {v : UInt64}
    (hcode : Instruction.decode p.code ip = .ok (.withOperand .ldi v))
    (h : Follows p d n Q
      (A.machine (ip + (Instruction.withOperand .ldi v).size) (v :: cells) env) r) :
    Follows p d n Q (A.machine ip cells env) r :=
  follows_push hd (step_of_decode (m := A.machine ip cells env) hcode) h

theorem follows_ldl (hd : d ≤ A.depth) {slot : Nat} (hslot : slot < k) (hk : k < 2 ^ 29)
    (hcode : Instruction.decode p.code ip = .ok (.withOperand .ldl slot.toUInt64))
    (h : Follows p d n Q
      (A.machine (ip + (Instruction.withOperand .ldl slot.toUInt64).size) (env.read slot :: cells) env) r) :
    Follows p d n Q (A.machine ip cells env) r := by
  have hload : (A.frames env.locals).load slot.toUInt64.toNat = .ok (env.read slot) := by
    rw [Instruction.toNat_toUInt64 (by omega)]
    exact A.load_frames hslot
  refine follows_push hd ?_ h
  rw [step_of_decode (m := A.machine ip cells env) hcode]
  show ((A.frames env.locals).load slot.toUInt64.toNat >>= _) = _
  rw [hload]
  rfl

theorem step_stl {slot : Nat} (hslot : slot < k) (hk : k < 2 ^ 29)
    (hcode : Instruction.decode p.code ip = .ok (.withOperand .stl slot.toUInt64)) :
    step p .derived (A.machine ip (c :: cells) env) =
      .ok (.next (A.machine (ip + (Instruction.withOperand .stl slot.toUInt64).size) cells
        (env.write slot c))) := by
  have hstore : (A.frames env.locals).store slot.toUInt64.toNat c =
      .ok (A.frames (env.write slot c).locals) := by
    rw [Instruction.toNat_toUInt64 (by omega)]
    exact A.store_frames hslot c
  rw [step_of_decode (m := A.machine ip (c :: cells) env) hcode]
  show ((A.frames env.locals).store slot.toUInt64.toNat c >>= _) = _
  rw [hstore]
  rfl

theorem follows_stl (hd : d ≤ A.depth) {slot : Nat} (hslot : slot < k) (hk : k < 2 ^ 29)
    (hcode : Instruction.decode p.code ip = .ok (.withOperand .stl slot.toUInt64))
    (h : Follows p d n Q
      (A.machine (ip + (Instruction.withOperand .stl slot.toUInt64).size) cells (env.write slot c)) r) :
    Follows p d n Q (A.machine ip (c :: cells) env) r :=
  (h.step hd (step_stl hslot hk hcode)).less (Nat.le_succ n)

theorem follows_dup (hd : d ≤ A.depth) (hcode : Instruction.decode p.code ip = .ok (.plain .dup))
    (h : Follows p d n Q (A.machine (ip + (Instruction.plain .dup).size) (c :: c :: cells) env) r) :
    Follows p d n Q (A.machine ip (c :: cells) env) r :=
  follows_push hd (step_of_decode (m := A.machine ip (c :: cells) env) hcode) h

theorem follows_pop (hd : d ≤ A.depth) (hcode : Instruction.decode p.code ip = .ok (.plain .pop))
    (h : Follows p d n Q (A.machine (ip + (Instruction.plain .pop).size) cells env) r) :
    Follows p d n Q (A.machine ip (c :: cells) env) r :=
  (h.step hd (step_of_decode (m := A.machine ip (c :: cells) env) hcode)).less (Nat.le_succ n)

theorem follows_not (hd : d ≤ A.depth) (hcode : Instruction.decode p.code ip = .ok (.plain .not))
    (h : Follows p d n Q
      (A.machine (ip + (Instruction.plain .not).size) (Cell.ofBool (!c.isTrue) :: cells) env) r) :
    Follows p d n Q (A.machine ip (c :: cells) env) r :=
  follows_push hd (step_of_decode (m := A.machine ip (c :: cells) env) hcode) h

/-- A branch is taken if the top cell is not zero. -/
theorem follows_br (hd : d ≤ A.depth) {i : Instruction} (hi : i.opcode = .br)
    (hcode : Instruction.decode p.code ip = .ok i)
    (h : Follows p d n Q
      (A.machine (if c.isTrue then i.operand.toNat else ip + i.size) cells env) r) :
    Follows p d (n + 1) Q (A.machine ip (c :: cells) env) r := by
  obtain ⟨op, v, w⟩ := i
  change op = .br at hi
  subst hi
  exact h.step hd (step_of_decode (m := A.machine ip (c :: cells) env) hcode)

theorem execute_onStack {layout : FrameLayout} {i : Instruction} {m : Machine}
    {result : Except Fault Stack} (h : i.opcode.onStack? m.stack = some result) :
    execute p layout i m = (do
      let stack ← result
      return .next ⟨m.ip + i.size, stack, m.frames, m.printed⟩) := by
  obtain ⟨op, v, w⟩ := i
  cases op <;> cases h <;> rfl

/-- An operation goes on with its value. -/
theorem follows_operation (hd : d ≤ A.depth) {op : OpCode} {arguments : List Cell}
    (hop : op.value? arguments = some (.ok c))
    (hcode : Instruction.decode p.code ip = .ok (.plain op))
    (h : Follows p d n Q (A.machine (ip + (Instruction.plain op).size) (c :: cells) env) r) :
    Follows p d n Q (A.machine ip (arguments.reverse ++ cells) env) r := by
  refine follows_push hd ?_ h
  rw [step_of_decode (m := A.machine ip (arguments.reverse ++ cells) env) hcode, execute_onStack
    (i := .plain op) (m := A.machine ip (arguments.reverse ++ cells) env) (OpCode.onStack?_of_value? hop)]
  rfl

/-- A division without a result stops the machine. -/
theorem follows_division (hd : d ≤ A.depth) {op : OpCode} {arguments : List Cell}
    {e : Cell.DivisionError} (hop : op.value? arguments = some (.error e))
    (hcode : Instruction.decode p.code ip = .ok (.plain op)) :
    Follows p d n Q (A.machine ip (arguments.reverse ++ cells) env) (.failed e env.printed) := by
  refine .fails hd ?_ rfl
  rw [step_of_decode (m := A.machine ip (arguments.reverse ++ cells) env) hcode, execute_onStack
    (i := .plain op) (m := A.machine ip (arguments.reverse ++ cells) env) (OpCode.onStack?_of_value? hop)]
  rfl

theorem execute_call {layout : FrameLayout} {v : UInt64} {w : Width} {s : CallStack} {stack : Stack}
    {printed : List String} :
    execute p layout ⟨.call, v, w⟩ ⟨ip, stack, s, printed⟩ =
      callSymbol p layout v ⟨ip + Instruction.size ⟨.call, v, w⟩, stack, s, printed⟩ := rfl

/-- A function outside the program prints its argument and gives zero. -/
theorem follows_print (hd : d ≤ A.depth) {g : Native}
    (hcode : Instruction.decode p.code ip = .ok (.withOperand .call g.id.toUInt64))
    (h : Follows p d n Q (A.machine (ip + (Instruction.withOperand .call g.id.toUInt64).size)
      (0 :: cells) { env with printed := "\n" :: g.print c :: env.printed }) r) :
    Follows p d n Q (A.machine ip (c :: cells) env) r := by
  have hnative : Native.ofId? g.id.toUInt64.toNat = some g := by
    rw [Instruction.toNat_toUInt64 g.id_lt]
    exact Native.ofId?_eq_some_iff.2 rfl
  refine follows_push hd ?_ h
  rw [step_of_decode (m := A.machine ip (c :: cells) env) hcode, Activation.machine,
    Instruction.withOperand, execute_call]
  simp only [callSymbol]
  rw [hnative]
  rfl

/-! ## Calls and returns -/

/-- A call goes on in an activation of its own, unless too many frames are open. -/
theorem step_call (cells : List Cell) (s : CallStack) (printed : List String) {i : Instruction}
    {o : Nat} (hop : i.opcode = .call) (hid : i.operand.toNat < Native.baseId)
    (hcallee : p.callee? i.operand.toNat = some ⟨i.operand.toNat, k * 8, o⟩)
    (hcode : Instruction.decode p.code ip = .ok i) :
    step p .derived ⟨ip, .ofCells cells, s, printed⟩ =
      if s.isFull then .error .callStackOverflow
      else .ok (.next ((Activation.above s (ip + i.size)).machine o cells
        ⟨Vector.replicate k 0, printed⟩)) := by
  have hnative := Native.ofId?_eq_none hid
  obtain ⟨op, v, w⟩ := i
  change op = .call at hop
  subst hop
  rw [step_of_decode (m := ⟨ip, .ofCells cells, s, printed⟩) hcode, execute_call, Activation.machine,
    ← Activation.opened_eq_frames]
  simp only [callSymbol]
  rw [hnative, hcallee]
  simp only [CallStack.push]
  split_ifs <;> rfl

/-- A call that returns goes on behind itself, with the frames that it was made from. -/
theorem step_ret {s : CallStack} {returnOffset : Nat}
    (hcode : Instruction.decode p.code ip = .ok (.plain .ret)) :
    step p .derived ((Activation.above s returnOffset).machine ip cells env) =
      .ok (.next ⟨returnOffset, .ofCells cells, s, env.printed⟩) := by
  rw [step_of_decode (m := (Activation.above s returnOffset).machine ip cells env) hcode]
  simp only [execute, Activation.machine, Instruction.plain, Activation.pop_frames_over]
  rfl

/-- When the first function returns, the machine halts. -/
theorem step_halt (cells : List Cell) (env : Env k)
    (hcode : Instruction.decode p.code ip = .ok (.plain .ret)) :
    ∃ m, step p .derived (Activation.bottom.machine ip cells env) = .ok (.halt m) ∧
      m.stack = .ofCells cells ∧ m.printed = env.printed := by
  rw [step_of_decode (m := Activation.bottom.machine ip cells env) hcode]
  exact ⟨_, rfl, rfl, rfl⟩

/-- Without arguments on the stack there is nothing to store. -/
theorem step_stl_empty {v : UInt64} (env : Env k)
    (hcode : Instruction.decode p.code ip = .ok (.withOperand .stl v)) :
    step p .derived (A.machine ip [] env) = .error .stackUnderflow := by
  rw [step_of_decode (m := A.machine ip [] env) hcode]
  rfl

end

end DanishProse

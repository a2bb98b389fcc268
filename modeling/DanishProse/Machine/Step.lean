/-
  One instruction of the machine.

  * A `Machine` is the place of the next instruction, the stack, the frames, and
    what has been printed;
  * `execute` carries out an instruction.  Operands are taken off the stack, the
    last one first, and results put on it;
  * `step` reads the next instruction and carries it out.  A machine halts when
    the function that it began with returns.
-/
import DanishProse.Bytecode.Program
import DanishProse.Decimal.Shortest
import DanishProse.Machine.CallStack
import DanishProse.Machine.Stack
import DanishProse.Prose.Literal

namespace DanishProse

/-- How much room a frame has. -/
inductive FrameLayout where
  /-- As much as the symbol of the function says. -/
  | derived
  /-- The same number of bytes for every function. -/
  | fixed (size : Nat)
deriving DecidableEq

/-- Eight slots for every function. -/
def FrameLayout.compatible : FrameLayout := .fixed 64

/-- The room for a function whose symbol asks for a number of bytes. -/
def FrameLayout.room (layout : FrameLayout) (size : Nat) : Nat :=
  match layout with
  | derived => size
  | fixed n => n

/-- A machine between two instructions. -/
structure Machine where
  /-- The offset of the next instruction. -/
  ip : Nat
  stack : Stack
  frames : CallStack
  /-- What has been printed, the last piece first. -/
  printed : List String

/-- All that a machine has printed. -/
def Machine.output (m : Machine) : String :=
  String.join m.printed.reverse

/-- The symbol that a call of an id goes to: the last one with the id. -/
def Program.callee? (p : Program) (id : Nat) : Option Symbol :=
  p.symbols.reverse.find? fun s => s.id = id

/-- The bytes that the first function asks for: those of the first symbol at the
    start of the code. -/
def Program.entrySize (p : Program) : Nat :=
  ((p.symbols.find? fun s => s.offset = 0).map Symbol.size).getD 0

/-- A machine before its first instruction. -/
def Machine.boot (p : Program) (layout : FrameLayout) : Machine :=
  ⟨0, .empty, .entry (layout.room p.entrySize), []⟩

/-- What a value is printed as. -/
def Native.print (f : Native) (value : Cell) : String :=
  match f with
  | printInteger => toString value.toInt64.toInt
  | printFloat => Binary64.text value
  | printBoolean => truthWord value.isTrue

/-! ## Operations on the stack -/

/-- A division without a result stops the machine. -/
def Cell.DivisionError.fault : Cell.DivisionError → Fault
  | byZero => .divisionByZero
  | overflow => .divisionOverflow

namespace Stack

/-- Replaces the top cell. -/
def unary (s : Stack) (f : Cell → Cell) : Except Fault Stack := do
  let (a, s) ← s.pop
  s.push (f a)

/-- Replaces the two top cells; the top one is the second operand. -/
def binary (s : Stack) (f : Cell → Cell → Cell) : Except Fault Stack := do
  let (b, s) ← s.pop
  let (a, s) ← s.pop
  s.push (f a b)

/-- Replaces the two top cells by a quotient, if there is one. -/
def divide (s : Stack) (f : Cell → Cell → Except Cell.DivisionError Cell) :
    Except Fault Stack := do
  let (b, s) ← s.pop
  let (a, s) ← s.pop
  match f a b with
  | .ok c => s.push c
  | .error e => .error e.fault

end Stack

/-- What an operation does to the stack, if it does nothing else. -/
def OpCode.onStack? (op : OpCode) (s : Stack) : Option (Except Fault Stack) :=
  match op with
  | .nop => some (.ok s)
  | .pop => some (s.pop.map Prod.snd)
  | .dup => some (s.peek.bind s.push)
  | .add => some (s.binary fun a b => a + b)
  | .sub => some (s.binary fun a b => a - b)
  | .umul => some (s.binary fun a b => a * b)
  | .imul => some (s.binary Cell.signedMul)
  | .udiv => some (s.divide Cell.unsignedDiv)
  | .idiv => some (s.divide Cell.signedDiv)
  | .fadd => some (s.binary (Cell.floatOp fun a b => a + b))
  | .fsub => some (s.binary (Cell.floatOp fun a b => a - b))
  | .fmul => some (s.binary (Cell.floatOp fun a b => a * b))
  | .fdiv => some (s.binary (Cell.floatOp fun a b => a / b))
  | .and => some (s.binary fun a b => Cell.ofBool (a.isTrue && b.isTrue))
  | .or => some (s.binary fun a b => Cell.ofBool (a.isTrue || b.isTrue))
  | .not => some (s.unary fun a => Cell.ofBool (!a.isTrue))
  | .eq => some (s.binary fun a b => Cell.ofBool (a == b))
  | .gt => some (s.binary fun a b => Cell.ofBool (b.signedLess a))
  | .lt => some (s.binary fun a b => Cell.ofBool (a.signedLess b))
  | .feq => some (s.binary fun a b => Cell.ofBool (a.floatEqual b))
  | .fgt => some (s.binary fun a b => Cell.ofBool (b.floatLess a))
  | .flt => some (s.binary fun a b => Cell.ofBool (a.floatLess b))
  | .i2f => some (s.unary Cell.floatOfSigned)
  | .f2i => some (s.unary Cell.signedOfFloat)
  | .ldi | .ldl | .stl | .call | .ret | .br => none

/-! ## Steps -/

/-- What comes of an instruction. -/
inductive Effect where
  | next (m : Machine)
  | halt (m : Machine)

/-- A call, when the next instruction is the one after it. -/
def callSymbol (p : Program) (layout : FrameLayout) (operand : UInt64) (m : Machine) :
    Except Fault Effect :=
  match m with
  | ⟨ip, stack, frames, printed⟩ =>
    match Native.ofId? operand.toNat with
    | some f => do
      let (value, stack) ← stack.pop
      let stack ← stack.push 0
      return .next ⟨ip, stack, frames, "\n" :: f.print value :: printed⟩
    | none =>
      match p.callee? operand.toNat with
      | some s => do
        let frames ← frames.push (layout.room s.size) ip
        return .next ⟨s.offset, stack, frames, printed⟩
      | none => .error (.unresolvedSymbol operand)

/-- Carries out an instruction. -/
def execute (p : Program) (layout : FrameLayout) (i : Instruction) (m : Machine) :
    Except Fault Effect :=
  match m with
  | ⟨here, stack, frames, printed⟩ =>
    let ip := here + i.size
    match i.opcode with
    | .ldi => do
      let stack ← stack.push i.operand
      return .next ⟨ip, stack, frames, printed⟩
    | .ldl => do
      let value ← frames.load i.operand.toNat
      let stack ← stack.push value
      return .next ⟨ip, stack, frames, printed⟩
    | .stl => do
      let (value, stack) ← stack.pop
      let frames ← frames.store i.operand.toNat value
      return .next ⟨ip, stack, frames, printed⟩
    | .call => callSymbol p layout i.operand ⟨ip, stack, frames, printed⟩
    | .ret =>
      match frames.pop with
      | some (frame, frames) =>
        match frame.returnOffset with
        | some offset => return .next ⟨offset, stack, frames, printed⟩
        | none => return .halt ⟨ip, stack, frames, printed⟩
      | none => return .halt ⟨ip, stack, frames, printed⟩
    | .br => do
      let (value, stack) ← stack.pop
      return .next ⟨if value.isTrue then i.operand.toNat else ip, stack, frames, printed⟩
    | op =>
      match op.onStack? stack with
      | some result => do
        let stack ← result
        return .next ⟨ip, stack, frames, printed⟩
      | none => return .next ⟨ip, stack, frames, printed⟩

/-- Reads the next instruction and carries it out. -/
def step (p : Program) (layout : FrameLayout) (m : Machine) : Except Fault Effect :=
  match Instruction.decode p.code m.ip with
  | .error e => .error (.decode m.ip e)
  | .ok i => execute p layout i m

end DanishProse

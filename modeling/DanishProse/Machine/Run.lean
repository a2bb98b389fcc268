/-
  Runs of the machine.

  * `advance` carries out up to a number of instructions, and `advance_add` goes
    on with a run that has not ended;
  * `Program.run` starts a program and lets it run to its end, to a fault, or to
    its limit of instructions.  Whatever it has printed until then is its output;
  * a machine that halts should leave one value on the stack; if not, the output
    ends with a remark;
  * `Program.trace` lists the stack and the instruction before each step of the
    same run.

  A run without a limit is given `patience` instructions, more than can be
  carried out.
-/
import DanishProse.Machine.Step

namespace DanishProse

/-- How a program is run. -/
structure Settings where
  layout : FrameLayout := .derived
  stepLimit : Option Nat := none

/-- The output of a run, and the fault that ended it, if one did. -/
structure RunResult where
  output : String
  fault : Option Fault
deriving DecidableEq

/-- A run so far. -/
inductive Progress where
  | running (m : Machine)
  | ended (r : RunResult)

/-- The remark on a stack that does not hold one value at the end. -/
def stackRemark (s : Stack) : String :=
  if s.depth = 1 then "" else s!"Invalid stack size on exit. Was {s.size} but expected 8."

/-- The result of a machine that has halted. -/
def Machine.result (m : Machine) : RunResult :=
  ⟨m.output ++ stackRemark m.stack, none⟩

/-- Carries out up to `n` instructions. -/
def advance (p : Program) (layout : FrameLayout) : Nat → Machine → Progress
  | 0, m => .running m
  | n + 1, m =>
    let printed := m.printed
    match step p layout m with
    | .ok (.next m) => advance p layout n m
    | .ok (.halt m) => .ended m.result
    | .error fault => .ended ⟨String.join printed.reverse, some fault⟩

/-- Carrying out instructions in two goes is carrying them out in one. -/
theorem advance_add (p : Program) (layout : FrameLayout) (n k : Nat) (m : Machine) :
    advance p layout (n + k) m =
      match advance p layout n m with
      | .running m => advance p layout k m
      | .ended r => .ended r := by
  induction n generalizing m with
  | zero => rw [Nat.zero_add]; rfl
  | succ n ih =>
    rw [Nat.succ_add, advance, advance]
    cases step p layout m with
    | error fault => rfl
    | ok effect =>
      cases effect with
      | next m => exact ih m
      | halt m => rfl

/-- The instructions that a run without a limit is given. -/
def patience : Nat := 0x4000000000000000

/-- The most instructions that a run carries out. -/
def Settings.steps (s : Settings) : Nat :=
  s.stepLimit.getD patience

/-- Runs a program. -/
def Program.run (p : Program) (s : Settings) : RunResult :=
  if p.code.isEmpty then ⟨"", some .noEntryPoint⟩
  else
    match advance p s.layout s.steps (.boot p s.layout) with
    | .running m => ⟨m.output, some (.stepLimit s.steps)⟩
    | .ended r => r

/-! ## Traces -/

/-- The lines on the next instruction of a machine, if there is one. -/
def Machine.lines (p : Program) (m : Machine) : List String :=
  match Instruction.decode p.code m.ip with
  | .ok i => [m.stack.text, s!"{Text.zeroPadded 4 m.ip} {i.text}"]
  | .error _ => []

/-- The lines on up to `n` instructions, after those that are there already. -/
def traceFrom (p : Program) (layout : FrameLayout) : Nat → Array String → Machine → Array String
  | 0, lines, _ => lines
  | n + 1, lines, m =>
    let lines := lines ++ m.lines p
    match step p layout m with
    | .ok (.next m) => traceFrom p layout n lines m
    | _ => lines

/-- The lines on a whole run. -/
def Program.trace (p : Program) (s : Settings) : List String :=
  if p.code.isEmpty then []
  else (traceFrom p s.layout s.steps #[] (.boot p s.layout)).toList

end DanishProse

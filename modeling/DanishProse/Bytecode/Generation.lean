/-
  Code for trees.

  Code is a list of instructions.  It depends on the place where it begins only
  through the targets of branches, which are offsets from the start of the whole
  code; forward branches have operands of full width, so that the code in front
  of a target has a known size before the target is known.

  * An expression leaves one value on the stack, on top of what was there;
  * an action leaves the stack as it was.  A branch is taken if the value on top
    is not zero, so a condition is negated to skip what hangs on it;
  * a function takes its arguments off the stack, the last one first, and leaves
    one value; a body that comes to its end leaves zero.
-/
import DanishProse.Bytecode.Program
import DanishProse.Typed.Tree

namespace DanishProse

/-- How many bytes a list of instructions takes. -/
@[simp] def codeSize : List Instruction → Nat
  | [] => 0
  | i :: is => i.size + codeSize is

@[simp] theorem codeSize_append (is js : List Instruction) :
    codeSize (is ++ js) = codeSize is + codeSize js := by
  induction is with
  | nil => simp
  | cons i is ih => simp [ih, Nat.add_assoc]

theorem length_flatMap_bytes (is : List Instruction) :
    (is.flatMap Instruction.bytes).length = codeSize is := by
  induction is with
  | nil => rfl
  | cons i is ih => simp [ih, Instruction.length_bytes]

/-! ## Expressions -/

/-- The value of a literal as a cell of the stack. -/
def Literal.cell : Literal → UInt64
  | integer value => value.toUInt64
  | float bits => bits
  | boolean value => if value then 1 else 0

/-- The call of a function whose arguments are on the stack. -/
def FunctionRole.invocation : FunctionRole → List Instruction
  | intrinsic op => [.plain op]
  | user symbol _ _ => [.withOperand .call symbol.toUInt64]
  | native f => [.withOperand .call f.id.toUInt64]
  | assignment => []

/-- Drops the value of an expression of a type. -/
def dropping (ty : Ty) : List Instruction :=
  if 0 < ty.size then [.plain .pop] else []

mutual

/-- The code of an expression; one that is unresolved has none. -/
def Expression.code (fs : List Function) : Expression → List Instruction
  | .literal v => [.withOperand .ldi v.cell]
  | .read slot _ => [.withOperand .ldl slot.toUInt64]
  | .assign slot e => e.code fs ++ [.plain .dup, .withOperand .stl slot.toUInt64]
  | .call index arguments _ =>
    argumentsCode fs arguments ++
      match fs[index]? with
      | some f => f.role.invocation
      | none => []
  | .sequence items _ => sequenceCode fs items
  | .unresolved _ => []

/-- Values one after the other. -/
def argumentsCode (fs : List Function) : List Expression → List Instruction
  | [] => []
  | e :: es => e.code fs ++ argumentsCode fs es

/-- Values one after the other, each dropped before the next one. -/
def sequenceCode (fs : List Function) : List Expression → List Instruction
  | [] => []
  | [e] => e.code fs
  | e :: d :: es => e.code fs ++ dropping e.type ++ sequenceCode fs (d :: es)

end

/-! ## Actions -/

/-- A branch whose operand has full width. -/
def wideBranch (target : Nat) : Instruction :=
  ⟨.br, target.toUInt64, .w64⟩

/-- A branch that is always taken, back to a place that is known. -/
def jumpBack (target : Nat) : List Instruction :=
  [.withOperand .ldi 1, .withOperand .br target.toUInt64]

/-- A branch that is always taken, to a place further on. -/
def jumpOver (target : Nat) : List Instruction :=
  [.withOperand .ldi 1, wideBranch target]

/-- Code for a condition, up to the branch that is taken if it fails. -/
def conditionCode (fs : List Function) (c : Expression) : List Instruction :=
  c.code fs ++ [.plain .not]

mutual

/-- The code of an action that begins at an offset. -/
def Action.code (fs : List Function) (start : Nat) : Action → List Instruction
  | .evaluate e => e.code fs ++ dropping e.type
  | .giveBack e => e.code fs ++ [.plain .ret]
  | .when c body =>
    let head := conditionCode fs c
    let bodyStart := start + codeSize head + (wideBranch 0).size
    let inner := actionsCode fs bodyStart body
    head ++ [wideBranch (bodyStart + codeSize inner)] ++ inner
  | .whenElse c body otherwise =>
    let head := conditionCode fs c
    let bodyStart := start + codeSize head + (wideBranch 0).size
    let inner := actionsCode fs bodyStart body
    let elseStart := bodyStart + codeSize inner + codeSize (jumpOver 0)
    let other := actionsCode fs elseStart otherwise
    head ++ [wideBranch elseStart] ++ inner ++ jumpOver (elseStart + codeSize other) ++ other
  | .loop c body =>
    let head := conditionCode fs c
    let bodyStart := start + codeSize head + (wideBranch 0).size
    let inner := actionsCode fs bodyStart body ++ jumpBack start
    head ++ [wideBranch (bodyStart + codeSize inner)] ++ inner

/-- The code of actions, the first of which begins at an offset. -/
def actionsCode (fs : List Function) (start : Nat) : List Action → List Instruction
  | [] => []
  | a :: as =>
    let first := a.code fs start
    first ++ actionsCode fs (start + codeSize first) as

end

/-! ## Functions -/

/-- Takes the arguments off the stack, the last one first. -/
def prologue (locals : List Local) : List Instruction :=
  (locals.filter Local.isParameter).reverse.map fun l => .withOperand .stl l.slot.toUInt64

/-- Leaves the function at the end of its body. -/
def epilogue (result : Ty) : List Instruction :=
  (if 0 < result.size then [.withOperand .ldi 0] else []) ++ [.plain .ret]

/-- The code of a function that begins at an offset. -/
def Function.code (fs : List Function) (start : Nat) (f : Function) : List Instruction :=
  match f.role with
  | .user _ locals body =>
    let first := prologue locals
    first ++ actionsCode fs (start + codeSize first) body ++ epilogue f.returnType
  | _ => []

/-- The symbol of a function that begins at an offset; eight bytes for each
    local, as far as 32 bits can say. -/
def Function.symbolAt (start : Nat) (f : Function) : Option Symbol :=
  match f.role with
  | .user symbol locals _ => some ⟨symbol, min (locals.length * 8) 0xffffffff, start⟩
  | _ => none

/-- Symbols and instructions. -/
structure Assembly where
  symbols : List Symbol
  code : List Instruction

/-- Functions one after the other. -/
def assemble (fs : List Function) (start : Nat) : List Function → Assembly
  | [] => ⟨[], []⟩
  | f :: others =>
    let own := f.code fs start
    let more := assemble fs (start + codeSize own) others
    ⟨(f.symbolAt start).toList ++ more.symbols, own ++ more.code⟩

/-- The program of a tree. -/
def Tree.program (t : Tree) : Program :=
  let a := assemble t.functions 0 t.functions
  ⟨a.symbols, (a.code.flatMap Instruction.bytes).toArray⟩

end DanishProse

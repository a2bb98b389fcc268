/-
  Programs of the stack machine: code, and symbols that say where functions
  begin in it and how much room their locals take.

  `Program.instructions` goes through the code from the start, one instruction
  after the other, up to the end or the first place without an instruction;
  `Program.text` lists what it finds.
-/
import DanishProse.Bytecode.Instruction

namespace DanishProse

/-- Where a function begins, and the bytes of its locals. -/
structure Symbol where
  id : Nat
  size : Nat
  offset : Nat
deriving DecidableEq

/-- Code, and the symbols of the functions in it. -/
structure Program where
  symbols : List Symbol
  code : Array UInt8
deriving DecidableEq

namespace Program

/-- The first symbol with an id. -/
def symbol? (p : Program) (id : Nat) : Option Symbol :=
  p.symbols.find? fun s => s.id = id

/-- The instructions of some code from an offset on, each with its offset. -/
def instructionsFrom (code : Array UInt8) (offset : Nat) :
    List (Except DecodeError (Nat × Instruction)) :=
  if offset < code.size then
    match Instruction.decode code offset with
    | .ok i => .ok (offset, i) :: instructionsFrom code (offset + i.size)
    | .error e => [.error e]
  else []
termination_by code.size - offset
decreasing_by have := i.size_pos; omega

/-- The instructions of a program. -/
def instructions (p : Program) : List (Except DecodeError (Nat × Instruction)) :=
  instructionsFrom p.code 0

/-- The line of a listing for one place of the code, after that of the first
    symbol that begins there. -/
def entryText (symbols : List Symbol) : Except DecodeError (Nat × Instruction) → String
  | .ok (offset, i) =>
    let label := match symbols.find? fun s => s.offset = offset with
      | some s => s!"@{Text.hexadecimal s.id}:\n"
      | none => ""
    label ++ s!"{Text.zeroPadded 4 offset} {i.text}\n"
  | .error e => s!"<{e.message}>\n"

/-- The line of a listing for a symbol. -/
def symbolText (s : Symbol) : String :=
  s!"@{Text.hexadecimal s.id} size {s.size} at {Text.zeroPadded 4 s.offset}\n"

/-- A program listed: its symbols, then its code. -/
def text (p : Program) : String :=
  "== symbols ==\n" ++ String.join (p.symbols.map symbolText) ++
    "== code ==\n" ++ String.join (p.instructions.map (entryText p.symbols))

end Program

end DanishProse

/-
  Why a run of the machine stops before its end.
-/
import DanishProse.Bytecode.Instruction

namespace DanishProse

/-- What a machine cannot go on after. -/
inductive Fault where
  | noEntryPoint
  | decode (offset : Nat) (error : DecodeError)
  | unresolvedSymbol (operand : UInt64)
  | stackUnderflow
  | stackOverflow
  | callStackOverflow
  | localOutOfFrame (slot size : Nat)
  | divisionByZero
  | divisionOverflow
  | stepLimit (limit : Nat)
deriving DecidableEq

/-- The words for a fault. -/
def Fault.message : Fault → String
  | noEntryPoint => "Program has no code to run"
  | decode offset error =>
    s!"Failed to read instruction at {Text.zeroPadded 4 offset}: {error.message}"
  | unresolvedSymbol operand => s!"Call to unknown symbol {Text.hexadecimal operand.toNat}"
  | stackUnderflow => "Data stack underflow"
  | stackOverflow => "Data stack overflow"
  | callStackOverflow => "Call stack overflow"
  | localOutOfFrame slot size => s!"Local #{slot} is outside the current frame of {size} bytes"
  | divisionByZero => "Integer division by zero"
  | divisionOverflow => "Integer division overflow"
  | stepLimit limit => s!"Step limit of {limit} instructions exceeded"

end DanishProse

/-
  Instructions and their bytes.

  An instruction is one byte, the operation in its low six bits and the width
  of the operand in the high two, and then the operand, low byte first.  An
  operation without operand is its byte alone.

  * `Width.ofValue` is the smallest width that holds a value;
  * `Instruction.bytes` writes an instruction, `Instruction.decode` reads the one
    at an offset of some code, and `DecodeError` says why there may be none.
-/
import DanishProse.Bytecode.OpCode
import DanishProse.Text.Field

namespace DanishProse

/-! ## Widths -/

/-- How many bytes an operand takes: one, two, four or eight. -/
inductive Width where
  | w8
  | w16
  | w32
  | w64
deriving DecidableEq

namespace Width

/-- The bytes that an operand of a width takes. -/
def bytes : Width → Nat
  | w8 => 1
  | w16 => 2
  | w32 => 4
  | w64 => 8

/-- The two bits that stand for a width. -/
def selector : Width → UInt8
  | w8 => 0
  | w16 => 1
  | w32 => 2
  | w64 => 3

/-- The width that two bits stand for. -/
def ofSelector (s : UInt8) : Width :=
  if s = 0 then w8 else if s = 1 then w16 else if s = 2 then w32 else w64

theorem ofSelector_selector (w : Width) : ofSelector w.selector = w := by
  cases w <;> rfl

/-- The smallest width that holds a value. -/
def ofValue (v : UInt64) : Width :=
  if v < 0x100 then w8
  else if v < 0x10000 then w16
  else if v < 0x100000000 then w32
  else w64

end Width

/-! ## Instructions -/

/-- An operation with its operand.  Without an operand the value is zero and the
    width the smallest. -/
structure Instruction where
  opcode : OpCode
  operand : UInt64
  width : Width
deriving DecidableEq

/-- The first byte of an instruction. -/
def leadByte (op : OpCode) (w : Width) : UInt8 :=
  op.byte ||| (w.selector <<< 6)

/-- The low bytes of a value, lowest first. -/
def lowBytes (v : UInt64) : Nat → List UInt8
  | 0 => []
  | n + 1 => v.toUInt8 :: lowBytes (v >>> 8) n

namespace Instruction

/-- An operation without operand. -/
def plain (op : OpCode) : Instruction :=
  ⟨op, 0, .w8⟩

/-- An operation with an operand at the smallest width. -/
def withOperand (op : OpCode) (operand : UInt64) : Instruction :=
  ⟨op, operand, .ofValue operand⟩

/-- How many bytes an instruction takes. -/
def size (i : Instruction) : Nat :=
  if i.opcode.hasOperand then 1 + i.width.bytes else 1

/-- An instruction in memory: its first byte, and its operand if it has one. -/
def bytes (i : Instruction) : List UInt8 :=
  leadByte i.opcode i.width ::
    if i.opcode.hasOperand then lowBytes i.operand i.width.bytes else []

theorem length_lowBytes (v : UInt64) (n : Nat) : (lowBytes v n).length = n := by
  induction n generalizing v with
  | zero => rfl
  | succ n ih => simp [lowBytes, ih]

theorem length_bytes (i : Instruction) : i.bytes.length = i.size := by
  simp only [bytes, size]
  split <;> simp [length_lowBytes, Nat.add_comm]

theorem size_pos (i : Instruction) : 0 < i.size := by
  unfold size
  split <;> omega

/-- An instruction in a listing. -/
def text (i : Instruction) : String :=
  let name := Text.alignLeft 6 i.opcode.mnemonic
  match i.opcode.operand with
  | .none => i.opcode.mnemonic
  | .immediate => s!"{name} {i.operand.toInt64.toInt}"
  | .slot => s!"{name} #{i.operand.toNat}"
  | .symbol => s!"{name} @{Text.hexadecimal i.operand.toNat}"
  | .position => s!"{name} {Text.zeroPadded 4 i.operand.toNat}"

end Instruction

/-! ## Decoding -/

/-- Why no instruction can be read. -/
inductive DecodeError where
  | unknownOpCode (byte : UInt8)
  | unexpectedWidth (op : OpCode) (selector : UInt8)
  | truncated (offset : Nat)
deriving DecidableEq

/-- The words for a byte that is no operation. -/
def unknownOpCodeText (byte : UInt8) : String :=
  s!"Invalid byte {byte.toNat} found when expecting OpCode value between 0 and {OpCode.all.size - 1}"

/-- The words for a place without an instruction. -/
def DecodeError.message : DecodeError → String
  | unknownOpCode byte => unknownOpCodeText byte
  | unexpectedWidth op selector =>
    s!"Opcode {op.mnemonic} takes no operand but has width selector {selector.toNat}"
  | truncated offset => s!"Instruction at offset {offset} runs past the end of the code"

/-- The value of `n` bytes from an offset on, lowest first. -/
def valueAt (code : Array UInt8) (offset : Nat) : Nat → UInt64
  | 0 => 0
  | n + 1 => (code.getD offset 0).toUInt64 ||| (valueAt code (offset + 1) n <<< 8)

/-- The instruction at an offset. -/
def Instruction.decode (code : Array UInt8) (offset : Nat) : Except DecodeError Instruction :=
  match code[offset]? with
  | none => .error (.truncated offset)
  | some lead =>
    match OpCode.ofByte? (lead &&& 0x3f) with
    | none => .error (.unknownOpCode (lead &&& 0x3f))
    | some op =>
      let selector := lead >>> 6
      if op.hasOperand then
        let width := Width.ofSelector selector
        if offset + 1 + width.bytes ≤ code.size then
          .ok ⟨op, valueAt code (offset + 1) width.bytes, width⟩
        else .error (.truncated offset)
      else if selector = 0 then .ok (.plain op)
      else .error (.unexpectedWidth op selector)

end DanishProse

/-
  The operations of the stack machine, and the functions that it calls outside.

  An operation has a byte, its index in `OpCode.all`, and a mnemonic; `operand`
  says what kind of operand it takes, if any.
-/

namespace DanishProse

/-- What the operand of an operation stands for. -/
inductive OperandKind where
  | none
  | immediate
  | slot
  | symbol
  | position
deriving DecidableEq

/-- The operations, in the order of their bytes. -/
inductive OpCode where
  | nop | ldi | ldl | stl | pop | dup
  | add | sub | umul | imul | udiv | idiv
  | fadd | fsub | fmul | fdiv
  | and | or | not
  | eq | gt | lt | feq | fgt | flt
  | call | ret | br
  | i2f | f2i
deriving DecidableEq, Inhabited

namespace OpCode

/-- All operations; the index of each is its byte. -/
def all : Array OpCode := #[
  nop, ldi, ldl, stl, pop, dup, add, sub, umul, imul, udiv, idiv, fadd, fsub, fmul, fdiv,
  and, or, not, eq, gt, lt, feq, fgt, flt, call, ret, br, i2f, f2i]

/-- The byte of an operation. -/
def byte (op : OpCode) : UInt8 :=
  op.ctorIdx.toUInt8

/-- The operation with a byte. -/
def ofByte? (b : UInt8) : Option OpCode :=
  all[b.toNat]?

theorem ofByte?_byte (op : OpCode) : ofByte? op.byte = some op := by
  cases op <;> rfl

/-- The kind of operand that an operation takes. -/
def operand : OpCode → OperandKind
  | ldi => .immediate
  | ldl | stl => .slot
  | call => .symbol
  | br => .position
  | _ => .none

/-- The operation takes an operand. -/
def hasOperand (op : OpCode) : Bool :=
  op.operand ≠ .none

/-- The name of an operation in listings. -/
def mnemonic : OpCode → String
  | nop => "nop"
  | ldi => "ldi"
  | ldl => "ldl"
  | stl => "stl"
  | pop => "pop"
  | dup => "dup"
  | add => "add"
  | sub => "sub"
  | umul => "umul"
  | imul => "imul"
  | udiv => "udiv"
  | idiv => "idiv"
  | fadd => "fadd"
  | fsub => "fsub"
  | fmul => "fmul"
  | fdiv => "fdiv"
  | and => "and"
  | or => "or"
  | not => "not"
  | eq => "eq"
  | gt => "gt"
  | lt => "lt"
  | feq => "feq"
  | fgt => "fgt"
  | flt => "flt"
  | call => "call"
  | ret => "ret"
  | br => "br"
  | i2f => "i2f"
  | f2i => "f2i"

end OpCode

/-- Functions outside the program. -/
inductive Native where
  | printInteger
  | printFloat
  | printBoolean
deriving DecidableEq

namespace Native

/-- The first of the ids that are kept for functions outside the program. -/
def baseId : Nat := 0xdeadbeef

/-- The id by which code calls a function outside the program. -/
def id : Native → Nat
  | printInteger => baseId
  | printFloat => baseId + 1
  | printBoolean => baseId + 2

/-- The function outside the program that has an id. -/
def ofId? (n : Nat) : Option Native :=
  if n = baseId then some printInteger
  else if n = baseId + 1 then some printFloat
  else if n = baseId + 2 then some printBoolean
  else none

theorem ofId?_eq_some_iff {n : Nat} {f : Native} : ofId? n = some f ↔ n = f.id := by
  unfold ofId?
  constructor
  · intro h
    split at h
    · cases h; assumption
    split at h
    · cases h; assumption
    split at h
    · cases h; assumption
    · cases h
  · rintro rfl
    cases f <;> rfl

end Native

end DanishProse

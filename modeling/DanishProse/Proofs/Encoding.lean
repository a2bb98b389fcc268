/-
  Instructions in the bytes of a program.

  * An instruction is `Encodable` if its operand fits its width; `decode_bytes`:
    read back from its bytes, wherever they stand, such an instruction is itself;
  * `Program.CodeAt p o is`: from the offset `o` on, the code of `p` reads as the
    instructions `is`, one after the other.  `codeAt_append` cuts it in two;
  * `placed o is` pairs instructions with their offsets, the first of which is
    `o`; a program made of encodable instructions lists just these
    (`instructions_eq_placed`).
-/
import Mathlib.Algebra.Group.Nat.Defs
import Mathlib.Tactic.Common
import DanishProse.Bytecode.Generation

namespace DanishProse

/-! ## One instruction -/

theorem OpCode.byte_of_leadByte (op : OpCode) (w : Width) : leadByte op w &&& 0x3f = op.byte := by
  cases op <;> cases w <;> rfl

theorem Width.selector_of_leadByte (op : OpCode) (w : Width) : leadByte op w >>> 6 = w.selector := by
  cases op <;> cases w <;> rfl

theorem Width.lt_ofValue (v : UInt64) : v.toNat < 256 ^ (Width.ofValue v).bytes := by
  have hv := v.toNat_lt
  unfold Width.ofValue
  split_ifs with h₁ h₂ h₃ <;> simp_all [Width.bytes, UInt64.lt_iff_toNat_lt]

namespace Instruction

/-- The operand fits the width; without an operand there is nothing to fit. -/
def Encodable (i : Instruction) : Prop :=
  if i.opcode.hasOperand then i.operand.toNat < 256 ^ i.width.bytes else i = .plain i.opcode

theorem encodable_plain {op : OpCode} (h : op.hasOperand = false) : (plain op).Encodable := by
  simp [Encodable, plain, h]

theorem encodable_withOperand {op : OpCode} (h : op.hasOperand = true) (v : UInt64) :
    (withOperand op v).Encodable := by
  simp only [Encodable, withOperand, h, if_true]
  exact Width.lt_ofValue v

theorem encodable_wideBranch (target : Nat) : (wideBranch target).Encodable :=
  target.toUInt64.toNat_lt

end Instruction

/-! ## Reading back -/

theorem toNat_shiftRight_eight (v : UInt64) : (v >>> 8).toNat = v.toNat / 256 := by
  rw [UInt64.toNat_shiftRight]
  exact Nat.shiftRight_eq_div_pow v.toNat 8

/-- A value is its low byte and the rest of it, moved back into place. -/
theorem lowByte_or_rest (v : UInt64) : v.toUInt8.toUInt64 ||| ((v >>> 8) <<< 8) = v := by
  apply UInt64.toNat_inj.1
  have hv := v.toNat_lt
  have hhigh : ((v >>> 8) <<< 8).toNat = 2 ^ 8 * (v.toNat / 256) := by
    rw [UInt64.toNat_shiftLeft, toNat_shiftRight_eight, show (8 : UInt64).toNat % 64 = 8 from rfl,
      Nat.shiftLeft_eq]
    omega
  rw [UInt64.toNat_or, hhigh, Nat.or_comm, ← Nat.two_pow_add_eq_or_of_lt (by simp; omega)]
  simp
  omega

theorem valueAt_lowBytes (n : Nat) : ∀ (v : UInt64) (pre post : List UInt8), v.toNat < 256 ^ n →
    valueAt (pre ++ lowBytes v n ++ post).toArray pre.length n = v := by
  induction n with
  | zero =>
    intro v pre post h
    have : v.toNat = 0 := by omega
    exact (UInt64.toNat_inj.1 this).symm
  | succ n ih =>
    intro v pre post h
    have hbyte : (pre ++ lowBytes v (n + 1) ++ post).toArray.getD pre.length 0 = v.toUInt8 := by
      simp [lowBytes]
    have hrest : valueAt (pre ++ lowBytes v (n + 1) ++ post).toArray (pre.length + 1) n = v >>> 8 := by
      have hsmall : (v >>> 8).toNat < 256 ^ n := by
        rw [toNat_shiftRight_eight, Nat.div_lt_iff_lt_mul (by omega), ← Nat.pow_succ]
        exact h
      have := ih (v >>> 8) (pre ++ [v.toUInt8]) post hsmall
      simpa [lowBytes] using this
    rw [valueAt, hbyte, hrest, lowByte_or_rest]

/-- **An encodable instruction is read back from its bytes.** -/
theorem decode_bytes {i : Instruction} (h : i.Encodable) (pre post : List UInt8) :
    Instruction.decode (pre ++ i.bytes ++ post).toArray pre.length = .ok i := by
  obtain ⟨op, v, w⟩ := i
  have hlead : (pre ++ (Instruction.mk op v w).bytes ++ post).toArray[pre.length]? =
      some (leadByte op w) := by
    simp [Instruction.bytes]
  rw [Instruction.decode, hlead]
  simp only [OpCode.byte_of_leadByte, OpCode.ofByte?_byte, Width.selector_of_leadByte]
  cases ho : op.hasOperand with
  | false =>
    simp only [Instruction.Encodable, ho, Bool.false_eq_true, if_false] at h
    cases h
    rfl
  | true =>
    simp only [Instruction.Encodable, ho, if_true] at h
    have hbytes : pre ++ (Instruction.mk op v w).bytes ++ post =
        (pre ++ [leadByte op w]) ++ lowBytes v w.bytes ++ post := by
      simp [Instruction.bytes, ho]
    have hfits : pre.length + 1 + w.bytes ≤ (pre ++ (Instruction.mk op v w).bytes ++ post).toArray.size := by
      simp [Instruction.bytes, ho, Instruction.length_lowBytes]
      omega
    have hv := valueAt_lowBytes w.bytes v (pre ++ [leadByte op w]) post h
    rw [← hbytes, List.length_append] at hv
    simp only [if_true, Width.ofSelector_selector, if_pos hfits]
    exact congrArg (fun u => Except.ok (Instruction.mk op u w)) hv

/-- What is read at an offset, if an instruction is: an operation with an operand that lies
    in the code as a whole, or one without. -/
theorem Instruction.decode_eq_ok {code : Array UInt8} {offset : Nat} {i : Instruction}
    (h : decode code offset = .ok i) :
    ∃ lead, code[offset]? = some lead ∧ ∃ op, OpCode.ofByte? (lead &&& 0x3f) = some op ∧
      let w := Width.ofSelector (lead >>> 6)
      (op.hasOperand = true ∧ offset + 1 + w.bytes ≤ code.size ∧
          i = ⟨op, valueAt code (offset + 1) w.bytes, w⟩) ∨
        (op.hasOperand = false ∧ lead >>> 6 = 0 ∧ i = plain op) := by
  unfold decode at h
  split at h
  · cases h
  · next lead hlead =>
    split at h
    · cases h
    · next op hop =>
      dsimp only at h
      split_ifs at h with hoperand hend hselector
      · cases h
        exact ⟨lead, hlead, op, hop, .inl ⟨hoperand, hend, rfl⟩⟩
      · cases h
        exact ⟨lead, hlead, op, hop, .inr ⟨Bool.eq_false_iff.2 hoperand, hselector, rfl⟩⟩

/-- An instruction that is read lies in the code as a whole. -/
theorem Instruction.end_le_of_decode {code : Array UInt8} {offset : Nat} {i : Instruction}
    (h : decode code offset = .ok i) : offset + i.size ≤ code.size := by
  obtain ⟨lead, hlead, op, -, ⟨hoperand, hend, rfl⟩ | ⟨hoperand, -, rfl⟩⟩ := decode_eq_ok h
  · rw [size, if_pos hoperand, ← Nat.add_assoc]
    exact hend
  · rw [plain, size, if_neg (by rw [hoperand]; decide)]
    exact (Array.getElem?_eq_some_iff.1 hlead).1

/-! ## Instructions in a row -/

/-- The code reads as instructions from an offset on. -/
def Program.CodeAt (p : Program) : Nat → List Instruction → Prop
  | _, [] => True
  | o, i :: is => Instruction.decode p.code o = .ok i ∧ p.CodeAt (o + i.size) is

theorem codeAt_append {p : Program} (is js : List Instruction) :
    ∀ o, p.CodeAt o (is ++ js) ↔ p.CodeAt o is ∧ p.CodeAt (o + codeSize is) js := by
  induction is with
  | nil => simp [Program.CodeAt]
  | cons i is ih =>
    intro o
    simp only [List.cons_append, Program.CodeAt, codeSize, ih, and_assoc, Nat.add_assoc]

/-- Bytes of encodable instructions read as these instructions. -/
theorem codeAt_of_encodable (symbols : List Symbol) (post : List UInt8) (is : List Instruction)
    (pre : List UInt8) (h : ∀ i ∈ is, i.Encodable) :
    Program.CodeAt ⟨symbols, (pre ++ is.flatMap Instruction.bytes ++ post).toArray⟩ pre.length is := by
  induction is generalizing pre with
  | nil => trivial
  | cons i is ih =>
    obtain ⟨hi, his⟩ := List.forall_mem_cons.1 h
    have hrest := ih (pre ++ i.bytes) his
    have hbytes : pre ++ (i :: is).flatMap Instruction.bytes ++ post =
        pre ++ i.bytes ++ (is.flatMap Instruction.bytes ++ post) := by
      simp
    rw [List.length_append, Instruction.length_bytes] at hrest
    refine ⟨?_, ?_⟩
    · rw [hbytes]
      exact decode_bytes hi pre _
    · simpa using hrest

/-- Instructions with their offsets. -/
def placed : Nat → List Instruction → List (Nat × Instruction)
  | _, [] => []
  | o, i :: is => (o, i) :: placed (o + i.size) is

theorem placed_append (is js : List Instruction) :
    ∀ o, placed o (is ++ js) = placed o is ++ placed (o + codeSize is) js := by
  induction is with
  | nil => simp [placed]
  | cons i is ih => simp [placed, ih, Nat.add_assoc]

theorem instructionsFrom_of_codeAt {p : Program} (is : List Instruction) (o : Nat)
    (hcode : p.CodeAt o is) (hend : o + codeSize is = p.code.size) :
    Program.instructionsFrom p.code o = (placed o is).map .ok := by
  induction is generalizing o with
  | nil =>
    rw [Program.instructionsFrom, if_neg (by simp at hend; omega)]
    rfl
  | cons i is ih =>
    obtain ⟨hi, his⟩ := hcode
    have hpos := i.size_pos
    rw [codeSize] at hend
    rw [Program.instructionsFrom, if_pos (by omega), hi]
    show _ :: _ = _
    rw [ih (o + i.size) his (by omega)]
    rfl

/-- **The listing of a program made of encodable instructions.** -/
theorem instructions_eq_placed (symbols : List Symbol) {is : List Instruction}
    (h : ∀ i ∈ is, i.Encodable) :
    Program.instructions ⟨symbols, (is.flatMap Instruction.bytes).toArray⟩ =
      (placed 0 is).map .ok := by
  have hcode := codeAt_of_encodable symbols [] is [] h
  rw [List.nil_append, List.append_nil] at hcode
  refine instructionsFrom_of_codeAt is 0 hcode ?_
  rw [Nat.zero_add, List.size_toArray, length_flatMap_bytes]

end DanishProse

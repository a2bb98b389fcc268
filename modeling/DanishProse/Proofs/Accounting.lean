/-
  Every byte of a code is accounted for by its listing, whatever the bytes are.

  * `Instruction.rewritten` writes an instruction again from its operation, its operand
    and its size; what is read at an offset is read from just these bytes
    (`Instruction.rewritten_of_decode`);
  * `DecodeError.At` says for each error what stands where it arises: inside of the code
    there is an operation above the last one, a width for an operation without operand,
    or an operand that runs past the end (`DecodeError.at_of_decode`);
  * `instructions_account` goes through a whole listing: its instructions stand in a row
    from the start of the code on, up to its end or to one error.
-/
import Mathlib.Tactic.Common
import DanishProse.Proofs.Encoding

namespace DanishProse

/-! ## Operands -/

theorem lt_room {n v : Nat} (hn : n < 8) (hv : v < 256 ^ n) : v < 2 ^ 56 := by
  have hpow : 256 ^ n ≤ 256 ^ 7 := Nat.pow_le_pow_right (by decide) (Nat.le_of_lt_succ hn)
  exact Nat.lt_of_lt_of_le hv hpow

/-- A byte below a value that leaves room for it. -/
theorem toNat_byte_or_rest (b : UInt8) {v : UInt64} (h : v.toNat < 2 ^ 56) :
    (b.toUInt64 ||| (v <<< 8)).toNat = 2 ^ 8 * v.toNat + b.toNat := by
  have hhigh : (v <<< 8).toNat = 2 ^ 8 * v.toNat := by
    rw [UInt64.toNat_shiftLeft, show (8 : UInt64).toNat % 64 = 8 from rfl, Nat.shiftLeft_eq]
    omega
  rw [UInt64.toNat_or, hhigh, UInt8.toNat_toUInt64, Nat.or_comm, Nat.two_pow_add_eq_or_of_lt b.toNat_lt]

section
variable {code : Array UInt8} {n : Nat}

theorem toNat_valueAt_lt (hn : n ≤ 8) : ∀ offset, (valueAt code offset n).toNat < 256 ^ n := by
  induction n with
  | zero => exact fun _ => Nat.one_pos
  | succ n ih =>
    intro offset
    have hrest := ih (Nat.le_of_succ_le hn) (offset + 1)
    have hbyte := (code.getD offset 0).toNat_lt
    rw [valueAt, toNat_byte_or_rest _ (lt_room hn hrest), Nat.pow_succ']
    omega

theorem toNat_valueAt_succ (hn : n < 8) (offset : Nat) : (valueAt code offset (n + 1)).toNat =
    2 ^ 8 * (valueAt code (offset + 1) n).toNat + (code.getD offset 0).toNat := by
  have hrest := @toNat_valueAt_lt code n (Nat.le_of_lt hn) (offset + 1)
  rw [valueAt, toNat_byte_or_rest _ (lt_room hn hrest)]

theorem toList_extract_succ {offset : Nat} (h : offset < code.size) :
    (code.extract offset (offset + (n + 1))).toList =
      code.getD offset 0 :: (code.extract (offset + 1) (offset + 1 + n)).toList := by
  have hlt : offset < code.toList.length := h
  rw [Array.toList_extract, Array.toList_extract, List.extract_eq_take_drop, List.extract_eq_take_drop,
    Nat.add_sub_cancel_left, Nat.add_sub_cancel_left, List.drop_eq_getElem_cons hlt, List.take_succ_cons]
  simp [Array.getD, h]

/-- **A value is written back as the bytes that it was read from**, if there are no more than fit. -/
theorem lowBytes_valueAt (hn : n ≤ 8) : ∀ {offset}, offset + n ≤ code.size →
    lowBytes (valueAt code offset n) n = (code.extract offset (offset + n)).toList := by
  induction n with
  | zero =>
    intro offset _
    rw [lowBytes, Nat.add_zero, Array.extract_eq_empty_of_le (Nat.min_le_left _ _)]
  | succ n ih =>
    intro offset hend
    have hvalue := @toNat_valueAt_succ code n hn offset
    have hbyte := (code.getD offset 0).toNat_lt
    have hlow : (valueAt code offset (n + 1)).toUInt8 = code.getD offset 0 := by
      rw [← UInt8.toNat_inj, UInt64.toNat_toUInt8, hvalue]
      omega
    have hhigh : valueAt code offset (n + 1) >>> 8 = valueAt code (offset + 1) n := by
      rw [← UInt64.toNat_inj, toNat_shiftRight_eight, hvalue]
      omega
    rw [lowBytes, hlow, hhigh, ih (Nat.le_of_succ_le hn) (by omega), toList_extract_succ (by omega)]

end

/-! ## First bytes -/

theorem low_or_high (b : UInt8) : (b &&& 0x3f : UInt8) ||| ((b >>> 6) <<< 6 : UInt8) = b := by
  have h : ∀ n : Fin 256, (UInt8.ofFin n &&& 0x3f : UInt8) |||
      ((UInt8.ofFin n >>> 6) <<< 6 : UInt8) = UInt8.ofFin n := by
    decide +kernel
  exact h b.toFin

theorem Width.selector_ofSelector (b : UInt8) : (ofSelector (b >>> 6)).selector = b >>> 6 := by
  have h : ∀ n : Fin 256, (ofSelector (UInt8.ofFin n >>> 6)).selector = UInt8.ofFin n >>> 6 := by
    decide +kernel
  exact h b.toFin

theorem OpCode.byte_of_ofByte? {b : UInt8} {op : OpCode} (h : ofByte? b = some op) : op.byte = b := by
  have hbytes : ∀ n : Fin 30, all[n.val]?.map (fun op => op.byte.toNat) = some n.val := by decide
  obtain ⟨hlt, -⟩ := Array.getElem?_eq_some_iff.1 h
  have hbyte := hbytes ⟨b.toNat, hlt⟩
  rw [show all[b.toNat]? = some op from h] at hbyte
  exact UInt8.toNat_inj.1 (Option.some_inj.1 hbyte)

theorem OpCode.ofByte?_eq_none_iff {b : UInt8} : ofByte? b = none ↔ 29 < b.toNat :=
  Array.getElem?_eq_none_iff

/-- A first byte is that of the operation and the width that are read from it. -/
theorem leadByte_of_ofByte? {b : UInt8} {op : OpCode} (h : OpCode.ofByte? (b &&& 0x3f) = some op) :
    leadByte op (.ofSelector (b >>> 6)) = b := by
  rw [leadByte, OpCode.byte_of_ofByte? h, Width.selector_ofSelector, low_or_high]

/-! ## Instructions -/

/-- The width of the operand of an instruction of some size.  One byte alone has the selector of
    the smallest width. -/
def Width.ofSize : Nat → Width
  | 3 => w16
  | 5 => w32
  | 9 => w64
  | _ => w8

theorem Width.ofSize_bytes (w : Width) : ofSize (w.bytes + 1) = w := by
  cases w <;> rfl

theorem Width.bytes_le (w : Width) : w.bytes ≤ 8 := by
  cases w <;> decide

namespace Instruction
variable {code : Array UInt8} {offset : Nat} {i : Instruction}

/-- The bytes of an instruction, from what a listing shows of it. -/
def rewritten (i : Instruction) : List UInt8 :=
  leadByte i.opcode (.ofSize i.size) :: lowBytes i.operand (i.size - 1)

/-- **An instruction is written back as the bytes that it was read from.** -/
theorem rewritten_of_decode (h : decode code offset = .ok i) :
    i.rewritten = (code.extract offset (offset + i.size)).toList := by
  obtain ⟨lead, hlead, op, hop, hread⟩ := decode_eq_ok h
  obtain ⟨hlt, hget⟩ := Array.getElem?_eq_some_iff.1 hlead
  have hfirst : code.getD offset 0 = lead := by
    rw [Array.getD_eq_getD_getElem?, hlead, Option.getD_some]
  have hextract (n : Nat) := @toList_extract_succ code n offset hlt
  rw [hfirst] at hextract
  obtain ⟨hoperand, hend, rfl⟩ | ⟨hoperand, hselector, rfl⟩ := hread
  · have hsize : (Instruction.mk op (valueAt code (offset + 1) (Width.ofSelector (lead >>> 6)).bytes)
        (.ofSelector (lead >>> 6))).size = (Width.ofSelector (lead >>> 6)).bytes + 1 := by
      rw [size, if_pos hoperand, Nat.add_comm]
    rw [rewritten, hsize, hextract, Nat.add_sub_cancel, lowBytes_valueAt (Width.bytes_le _) hend,
      Nat.add_comm, Width.ofSize_bytes, leadByte_of_ofByte? hop]
  · have hsize : (plain op).size = 1 := if_neg (Bool.eq_false_iff.1 hoperand)
    have hone := leadByte_of_ofByte? hop
    rw [hselector] at hone
    rw [rewritten, hsize, hextract 0, Nat.add_zero, Array.extract_eq_empty_of_le (Nat.min_le_left _ _)]
    exact congrArg (· :: []) hone

end Instruction

/-! ## Errors -/

/-- What stands at an offset inside of the code where no instruction can be read. -/
inductive DecodeError.At (code : Array UInt8) (offset : Nat) : DecodeError → Prop
  /-- An operation above the last one. -/
  | unknownOpCode {lead : UInt8} : code[offset]? = some lead → 29 < (lead &&& 0x3f).toNat →
      At code offset (.unknownOpCode (lead &&& 0x3f))
  /-- The selector of a width, for an operation without operand. -/
  | unexpectedWidth {lead : UInt8} {op : OpCode} : code[offset]? = some lead →
      lead &&& 0x3f = op.byte → op.hasOperand = false → lead >>> 6 ≠ 0 →
      At code offset (.unexpectedWidth op (lead >>> 6))
  /-- An operand that runs past the end. -/
  | truncated {lead : UInt8} {op : OpCode} : code[offset]? = some lead →
      lead &&& 0x3f = op.byte → op.hasOperand = true →
      code.size < offset + 1 + (Width.ofSelector (lead >>> 6)).bytes → At code offset (.truncated offset)

/-- **Nothing else keeps an instruction from being read.** -/
theorem DecodeError.at_of_decode {code : Array UInt8} {offset : Nat} {e : DecodeError}
    (h : Instruction.decode code offset = .error e) (hlt : offset < code.size) : e.At code offset := by
  have hlead : code[offset]? = some code[offset] := Array.getElem?_eq_getElem hlt
  rw [Instruction.decode, hlead] at h
  dsimp only at h
  split at h
  · next hop =>
    cases h
    exact .unknownOpCode hlead (OpCode.ofByte?_eq_none_iff.1 hop)
  · next op hop =>
    have hbyte := (OpCode.byte_of_ofByte? hop).symm
    split_ifs at h with hoperand hend hselector
    · cases h
      exact .truncated hlead hbyte hoperand (Nat.not_le.1 hend)
    · cases h
      exact .unexpectedWidth hlead hbyte (Bool.eq_false_iff.2 hoperand) hselector

/-! ## Listings -/

/-- A listing from an offset on: instructions in a row, each read from its own bytes, up to the
    end of the code or to one error. -/
structure Accounts (code : Array UInt8) (start : Nat) (is : List Instruction)
    (rest : List (Except DecodeError (Nat × Instruction))) : Prop where
  /-- Each instruction lies in the code, and is written back as the bytes that it takes. -/
  bytes : ∀ o i, (o, i) ∈ placed start is →
    o + i.size ≤ code.size ∧ i.rewritten = (code.extract o (o + i.size)).toList
  /-- Nothing is left, or there is an error where the instructions end. -/
  last : (rest = [] ∧ start + codeSize is = code.size) ∨
    ∃ e : DecodeError, rest = [.error e] ∧ start + codeSize is < code.size ∧
      e.At code (start + codeSize is)

/-- An instruction in front of a listing. -/
theorem Accounts.cons {code : Array UInt8} {start : Nat} {i : Instruction} {is : List Instruction}
    {rest : List (Except DecodeError (Nat × Instruction))} (hi : Instruction.decode code start = .ok i)
    (h : Accounts code (start + i.size) is rest) : Accounts code start (i :: is) rest where
  bytes o j hj := by
    rcases List.mem_cons.1 hj with hj | hj
    · cases hj
      exact ⟨Instruction.end_le_of_decode hi, Instruction.rewritten_of_decode hi⟩
    · exact h.bytes o j hj
  last := by
    rw [codeSize, ← Nat.add_assoc]
    exact h.last

/-- **From every offset on, the listing accounts for the bytes.** -/
theorem exists_accounts (code : Array UInt8) (start : Nat) (hle : start ≤ code.size) :
    ∃ is rest, Program.instructionsFrom code start = (placed start is).map .ok ++ rest ∧
      Accounts code start is rest := by
  fun_induction Program.instructionsFrom code start with
  | case1 start hlt i hi ih =>
    obtain ⟨is, rest, hlist, haccounts⟩ := ih (Instruction.end_le_of_decode hi)
    refine ⟨i :: is, rest, ?_, haccounts.cons hi⟩
    rw [hlist]
    rfl
  | case2 start hlt e he =>
    refine ⟨[], [.error e], rfl, ?_, .inr ⟨e, rfl, hlt, DecodeError.at_of_decode he hlt⟩⟩
    nofun
  | case3 start hge =>
    refine ⟨[], [], rfl, ?_, .inl ⟨rfl, Nat.le_antisymm hle (Nat.not_lt.1 hge)⟩⟩
    nofun

theorem length_instructionsFrom_le (code : Array UInt8) (start : Nat) :
    (Program.instructionsFrom code start).length ≤ code.size - start := by
  fun_induction Program.instructionsFrom code start with
  | case1 start hlt i hi ih =>
    have hpos := i.size_pos
    rw [List.length_cons]
    omega
  | case2 start hlt e he =>
    rw [List.length_singleton]
    omega
  | case3 => exact Nat.zero_le _

/-- **A listing accounts for every byte**, whatever the code.  There are no more places in it than
    bytes; its instructions stand in a row from the start on, none past the end, and each is written
    back as the bytes that it was read from.  Either they take all of the code and there is no
    error, or the last place, and no other, is an error: an operation above the last one, a width
    for an operation without operand, or an operand that runs past the end. -/
theorem instructions_account (p : Program) : p.instructions.length ≤ p.code.size ∧
    ∃ is rest, p.instructions = (placed 0 is).map .ok ++ rest ∧ Accounts p.code 0 is rest :=
  ⟨length_instructionsFrom_le p.code 0, exists_accounts p.code 0 (Nat.zero_le _)⟩

/-- The operand of the second instruction runs past the end. -/
example : Program.instructions ⟨[], #[0x06, 0x41, 0x00]⟩ =
    [.ok (0, .plain .add), .error (.truncated 1)] := by
  cbv

end DanishProse

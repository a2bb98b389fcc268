/-
  Instructions listed back from their bytes.

  * `Instruction.WrittenAs` says which bytes an instruction may be written as: an
    operation without operand is one byte, and an operand may have any width that is
    not below the smallest one;
  * written at a narrower width, an operand loses its high bytes (`bytes_cut`), so
    `Width.ofValue` is the smallest width at which it is read back (`operand_kept_iff`);
  * `instructions_written`: what has been written one after the other is listed again,
    each instruction at the offset where the ones before it end.
-/
import DanishProse.Proofs.Encoding

namespace DanishProse

/-! ## Widths -/

theorem Width.bytes_mono {w w' : Width} (h : w.bytes ≤ w'.bytes) : 256 ^ w.bytes ≤ 256 ^ w'.bytes :=
  Nat.pow_le_pow_right (by decide) h

/-- A width holds a value if it is not below the smallest one. -/
theorem Width.ofValue_le_iff (v : UInt64) (w : Width) :
    (ofValue v).bytes ≤ w.bytes ↔ v.toNat < 256 ^ w.bytes := by
  constructor
  · intro h
    exact Nat.lt_of_lt_of_le (lt_ofValue v) (bytes_mono h)
  · intro h
    unfold ofValue
    cases w <;> split_ifs with h₁ h₂ h₃ <;> simp_all [bytes, UInt64.lt_iff_toNat_lt]

/-- What is left of a value in the bytes of a width. -/
def Width.cut (w : Width) (v : UInt64) : UInt64 :=
  (v.toNat % 256 ^ w.bytes).toUInt64

theorem toNat_mod_toUInt64 (v : UInt64) (n : Nat) : (v.toNat % n).toUInt64.toNat = v.toNat % n := by
  rw [UInt64.toNat_ofNat']
  exact Nat.mod_eq_of_lt (Nat.lt_of_le_of_lt (Nat.mod_le _ _) v.toNat_lt)

theorem Width.toNat_cut (w : Width) (v : UInt64) : (w.cut v).toNat = v.toNat % 256 ^ w.bytes :=
  toNat_mod_toUInt64 v _

theorem Width.cut_eq_iff (w : Width) (v : UInt64) : w.cut v = v ↔ (ofValue v).bytes ≤ w.bytes := by
  rw [ofValue_le_iff, ← UInt64.toNat_inj, toNat_cut]
  constructor
  · intro h
    rw [← h]
    exact Nat.mod_lt _ (Nat.pow_pos (by decide))
  · exact Nat.mod_eq_of_lt

/-! ## Bytes -/

/-- The low bytes of a value do not depend on the others. -/
theorem lowBytes_mod (n : Nat) : ∀ v : UInt64, lowBytes (v.toNat % 256 ^ n).toUInt64 n = lowBytes v n := by
  induction n with
  | zero => exact fun _ => rfl
  | succ n ih =>
    intro v
    have hcut := toNat_mod_toUInt64 v (256 ^ (n + 1))
    have hlow : (v.toNat % 256 ^ (n + 1)).toUInt64.toUInt8 = v.toUInt8 := by
      rw [← UInt8.toNat_inj, UInt64.toNat_toUInt8, UInt64.toNat_toUInt8, hcut, Nat.pow_succ']
      exact Nat.mod_mul_right_mod _ _ _
    have hrest : (v.toNat % 256 ^ (n + 1)).toUInt64 >>> 8 = ((v >>> 8).toNat % 256 ^ n).toUInt64 := by
      rw [← UInt64.toNat_inj, toNat_shiftRight_eight, hcut, toNat_mod_toUInt64, toNat_shiftRight_eight,
        Nat.pow_succ']
      exact Nat.mod_mul_right_div_self _ _ _
    rw [lowBytes, lowBytes, hlow, hrest, ih]

namespace Instruction

/-- The bytes of an instruction with an operand are those of its operand cut to the width. -/
theorem bytes_cut (op : OpCode) (v : UInt64) (w : Width) :
    (Instruction.mk op v w).bytes = (Instruction.mk op (w.cut v) w).bytes := by
  simp only [bytes, Width.cut, lowBytes_mod]

/-- **An operand is read back cut to its width.** -/
theorem decode_cut {op : OpCode} (h : op.hasOperand = true) (v : UInt64) (w : Width)
    (pre post : List UInt8) :
    decode (pre ++ (Instruction.mk op v w).bytes ++ post).toArray pre.length = .ok ⟨op, w.cut v, w⟩ := by
  have hfits : (Instruction.mk op (w.cut v) w).Encodable := by
    simp only [Encodable, h, if_true, Width.toNat_cut]
    exact Nat.mod_lt _ (Nat.pow_pos (by decide))
  rw [bytes_cut]
  exact decode_bytes hfits pre post

/-- An operand is read back as it was written just at the widths that hold it. -/
theorem operand_kept_iff {op : OpCode} (h : op.hasOperand = true) (v : UInt64) (w : Width) :
    (decode (Instruction.mk op v w).bytes.toArray 0).map operand = .ok v ↔
      (Width.ofValue v).bytes ≤ w.bytes := by
  have hread := decode_cut h v w [] []
  rw [List.nil_append, List.append_nil, List.length_nil] at hread
  rw [hread, ← Width.cut_eq_iff, Except.map, Except.ok.injEq]

/-- The bytes that an instruction may be written as. -/
inductive WrittenAs : Instruction → List UInt8 → Prop
  | plain {op : OpCode} : op.hasOperand = false → WrittenAs (.plain op) [op.byte]
  | operand {op : OpCode} {v : UInt64} {w : Width} : op.hasOperand = true →
      (Width.ofValue v).bytes ≤ w.bytes →
        WrittenAs ⟨op, v, w⟩ (leadByte op w :: lowBytes v w.bytes)

theorem bytes_plain {op : OpCode} (h : op.hasOperand = false) : (plain op).bytes = [op.byte] := by
  cases op <;> first | rfl | cases h

namespace WrittenAs
variable {i : Instruction} {bs : List UInt8}

theorem eq_bytes (h : i.WrittenAs bs) : bs = i.bytes := by
  cases h with
  | plain hop => exact (bytes_plain hop).symm
  | operand hop => simp only [bytes, hop, if_true]

theorem encodable (h : i.WrittenAs bs) : i.Encodable := by
  cases h with
  | plain hop => exact encodable_plain hop
  | operand hop hw =>
    simp only [Encodable, hop, if_true]
    exact (Width.ofValue_le_iff _ _).1 hw

/-- A stream of instructions is made of their bytes, which can be read back. -/
theorem stream {is : List Instruction} {pieces : List (List UInt8)}
    (h : List.Forall₂ WrittenAs is pieces) :
    pieces.flatten = is.flatMap bytes ∧ ∀ i ∈ is, i.Encodable := by
  induction h with
  | nil => exact ⟨rfl, List.forall_mem_nil _⟩
  | cons hi _ ih =>
    obtain ⟨hbytes, hfits⟩ := ih
    refine ⟨?_, List.forall_mem_cons.2 ⟨hi.encodable, hfits⟩⟩
    rw [List.flatten_cons, List.flatMap_cons, hi.eq_bytes, hbytes]

end WrittenAs

end Instruction

/-! ## Listings -/

/-- **What has been written is listed again.**  A program whose code consists of
    instructions, one after the other, lists just these, each at the offset where those
    before it end, and nothing else.  The smallest width is the smallest at which
    an operand is read back as it was. -/
theorem instructions_written (symbols : List Symbol) {is : List Instruction} {pieces : List (List UInt8)}
    (h : List.Forall₂ Instruction.WrittenAs is pieces) :
    Program.instructions ⟨symbols, pieces.flatten.toArray⟩ = (placed 0 is).map .ok ∧
      ∀ (op : OpCode) (v : UInt64) (w : Width), op.hasOperand = true →
        ((Instruction.decode (leadByte op w :: lowBytes v w.bytes).toArray 0).map Instruction.operand = .ok v ↔
          (Width.ofValue v).bytes ≤ w.bytes) := by
  obtain ⟨hbytes, hfits⟩ := Instruction.WrittenAs.stream h
  refine ⟨?_, fun op v w hop => ?_⟩
  · rw [hbytes]
    exact instructions_eq_placed symbols hfits
  · have hkept := Instruction.operand_kept_iff hop v w
    simp only [Instruction.bytes, hop, if_true] at hkept
    exact hkept

/-- Operands at the smallest width and at wider ones, with their bytes. -/
def sampleStream : List (Instruction × List UInt8) := [
  (⟨.ldi, 0x100, .w16⟩, [0x41, 0, 1]),
  (⟨.stl, 0, .w64⟩, [0xc3, 0, 0, 0, 0, 0, 0, 0, 0]),
  (.plain .add, [6]),
  (⟨.call, 0xdeadbeef, .w32⟩, [0x99, 0xef, 0xbe, 0xad, 0xde]),
  (.plain .ret, [26])]

theorem instructions_written_sample :
    let is := sampleStream.map Prod.fst
    let pieces := sampleStream.map Prod.snd
    List.Forall₂ Instruction.WrittenAs is pieces ∧
      Program.instructions ⟨[], pieces.flatten.toArray⟩ =
        [.ok (0, ⟨.ldi, 0x100, .w16⟩), .ok (3, ⟨.stl, 0, .w64⟩), .ok (12, .plain .add),
          .ok (13, ⟨.call, 0xdeadbeef, .w32⟩), .ok (18, .plain .ret)] := by
  have hwritten : List.Forall₂ Instruction.WrittenAs (sampleStream.map Prod.fst)
      (sampleStream.map Prod.snd) :=
    .cons (.operand rfl (by decide)) (.cons (.operand rfl (by decide)) (.cons (.plain rfl)
      (.cons (.operand rfl (by decide)) (.cons (.plain rfl) .nil))))
  exact ⟨hwritten, (instructions_written [] hwritten).1⟩

end DanishProse

import ControlRTT.Components.Ymodem
import ControlRTT.Lib.Crc

/-! # The checksum of a packet (ymodem.c)

`CRC16` takes a byte in one step, with a table of what eight bits do to the register. It is the
remainder by the polynomial 0x1021 (`crc16_remainder`). -/
namespace ControlRTT.Components.Ymodem
open ControlRTT.Lib.CInt ControlRTT.Lib.Crc Polynomial

/-- `x^12 + x^5 + 1`; `x^16` is not stored. -/
def ccittPoly : BitVec 16 := 0x1021

/-- A round of the loop. -/
def crcByte (crc : BitVec 16) (b : Byte) : BitVec 16 :=
  (crc <<< 8) ^^^ ccittTable.getD (((crc >>> 8) ^^^ b.setWidth 16) &&& 0xFF).toNat 0

theorem crc16_eq_foldl (q : List Byte) : crc16 q = q.foldl crcByte 0 := rfl

/-! ## The table -/

/-- An entry is what the byte makes of an empty register. -/
theorem ccittTable_bits : ∀ b : Byte,
    ccittTable.getD b.toNat 0 = crcBits ccittPoly 0 (bitsOf b) := by decide +kernel

/-- It is what the high byte of the register becomes. -/
theorem crcBits_high : ∀ h : Byte,
    crcBits ccittPoly (h.setWidth 16 <<< 8) (bitsOf (0 : Byte)) = ccittTable.getD h.toNat 0 := by
  decide +kernel

/-- The low byte is shifted to the high one. -/
theorem crcBits_low : ∀ l : Byte,
    crcBits ccittPoly (l.setWidth 16) (bitsOf (0 : Byte)) = l.setWidth 16 <<< 8 := by decide +kernel

section
variable (crc : BitVec 16) (b : Byte)

theorem crc_split : crc = (((crc >>> 8).setWidth 8).setWidth 16 <<< 8) ^^^
    (crc.setWidth 8).setWidth 16 := by
  refine BitVec.eq_of_getLsbD_eq fun i hi => ?_
  simp only [BitVec.getLsbD_xor, BitVec.getLsbD_shiftLeft, BitVec.getLsbD_setWidth,
    BitVec.getLsbD_ushiftRight]
  rcases Nat.lt_or_ge i 8 with h | h
  · simp [h, hi]
  · have hback : 8 + (i - 8) = i := by omega
    have hbyte : i - 8 < 8 := by omega
    have hword : i - 8 < 16 := by omega
    simp [hback, hbyte, hword, hi, Nat.not_lt_of_le h]

theorem crc_shift : crc <<< 8 = (crc.setWidth 8).setWidth 16 <<< 8 := by
  refine BitVec.eq_of_getLsbD_eq fun i hi => ?_
  simp only [BitVec.getLsbD_shiftLeft, BitVec.getLsbD_setWidth]
  rcases Nat.lt_or_ge i 8 with h | h
  · simp [h]
  · have hbyte : i - 8 < 8 := by omega
    have hword : i - 8 < 16 := by omega
    simp [hbyte, hword]

theorem index_eq : (((crc >>> 8) ^^^ b.setWidth 16) &&& 0xFF).toNat =
    ((crc >>> 8).setWidth 8 ^^^ b).toNat := by
  have hmask : ∀ x : Nat, x &&& (0xFF : BitVec 16).toNat = x % 2 ^ 8 := fun x =>
    Nat.and_two_pow_sub_one_eq_mod x 8
  have hb : b.toNat % 256 = b.toNat := Nat.mod_eq_of_lt b.isLt
  rw [BitVec.toNat_and, BitVec.toNat_xor, BitVec.toNat_xor, hmask, Nat.xor_mod_two_pow]
  simp [hb]

/-- A round of the loop is eight bits of the register. -/
theorem crcByte_eq : crcByte crc b = crcBits ccittPoly crc (bitsOf b) := by
  have hentry : ccittTable.getD ((crc >>> 8).setWidth 8 ^^^ b).toNat 0 =
      ccittTable.getD ((crc >>> 8).setWidth 8).toNat 0 ^^^ ccittTable.getD b.toNat 0 := by
    have hxor := @crcBits_xor _ (bitsOf ((crc >>> 8).setWidth 8)) (bitsOf b) ccittPoly 0 0 (by simp)
    rw [← bitsOf_xor, BitVec.xor_self] at hxor
    rw [ccittTable_bits, ccittTable_bits, ccittTable_bits]
    exact hxor
  have hlow := @crcBits_xor _ (bitsOf (0 : Byte)) (bitsOf (0 : Byte)) ccittPoly
    (((crc >>> 8).setWidth 8).setWidth 16 <<< 8) ((crc.setWidth 8).setWidth 16) rfl
  have hwhole := @crcBits_xor _ (bitsOf (0#8)) (bitsOf b) ccittPoly crc 0#16 (by simp)
  rw [← bitsOf_xor, ← crc_split, BitVec.xor_self, crcBits_high, crcBits_low, ← crc_shift] at hlow
  rw [← bitsOf_xor, BitVec.xor_zero, BitVec.zero_xor, hlow] at hwhole
  rw [crcByte, index_eq, hentry, hwhole, ccittTable_bits b, ← BitVec.xor_assoc,
    BitVec.xor_comm (crc <<< 8)]
  rfl

/-- The high byte of the register, as the next one, leaves the low byte. -/
theorem crcByte_self : crcByte crc ((crc >>> 8).setWidth 8) = crc <<< 8 := by
  rw [crcByte, index_eq, BitVec.xor_self]
  have hempty : ccittTable.getD (0#8).toNat 0 = 0#16 := (ccittTable_bits 0#8).trans (by decide)
  rw [hempty, BitVec.xor_zero]

end

/-! ## The remainder -/

theorem crc16_eq_crcBits (q : List Byte) :
    crc16 q = crcBits ccittPoly 0 (q.flatMap bitsOf) := by
  rw [crc16_eq_foldl, crcBits, List.foldl_flatMap]
  exact congrArg (fun f => q.foldl f 0) (funext fun crc => funext fun b => crcByte_eq crc b)

theorem generator_ccittPoly : generator ccittPoly = X ^ 16 + X ^ 12 + X ^ 5 + 1 := by
  have hbits : ccittPoly = BitVec.twoPow 16 12 ^^^ BitVec.twoPow 16 5 ^^^ BitVec.twoPow 16 0 := by
    decide
  rw [generator, hbits, toPoly_xor, toPoly_xor, toPoly_twoPow (by decide),
    toPoly_twoPow (by decide), toPoly_twoPow (by decide), pow_zero, ← add_assoc, ← add_assoc]

/-- The checksum, byte for byte, is the remainder of the message by the polynomial, bit for bit;
behind the message it leaves nothing. -/
theorem crc16_remainder (q : List Byte) :
    crc16 q = crcBits ccittPoly 0 (q.flatMap bitsOf) ∧
      toPoly (crc16 q) =
        (ofBits (q.flatMap bitsOf) * X ^ 16) %ₘ (X ^ 16 + X ^ 12 + X ^ 5 + 1) ∧
      crc16 (q ++ [(crc16 q >>> 8).setWidth 8, (crc16 q).setWidth 8]) = 0 := by
  refine ⟨crc16_eq_crcBits q, ?_, ?_⟩
  · rw [← generator_ccittPoly, modByMonic_generator, crc16_eq_crcBits]
  · have hlast : (crc16 q).setWidth 8 = (crc16 q <<< 8 >>> 8).setWidth 8 := by
      refine BitVec.eq_of_getLsbD_eq fun i hi => ?_
      have hword : 8 + i < 16 := by omega
      simp only [BitVec.getLsbD_setWidth, BitVec.getLsbD_ushiftRight, BitVec.getLsbD_shiftLeft,
        hi, hword, decide_true, Bool.true_and, Nat.not_lt_of_le (Nat.le_add_right 8 i),
        decide_false, Bool.not_false, Nat.add_sub_cancel_left]
    rw [crc16_eq_foldl, List.foldl_append, ← crc16_eq_foldl]
    simp only [List.foldl_cons, List.foldl_nil]
    rw [crcByte_self, hlast, crcByte_self, ← BitVec.shiftLeft_add]
    exact BitVec.shiftLeft_eq_zero (by decide)

end ControlRTT.Components.Ymodem

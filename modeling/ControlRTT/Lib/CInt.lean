import Mathlib.Algebra.Order.Ring.Int

/-! # C integers on a 32-bit machine

An `int` whose value is what matters is an `Int`; a word whose bits matter is a
`BitVec 32`. This file has the conversions a program makes between them: two
bytes joined to a number, the conversion to `short`, and a 32-bit word that
carries a code in its high half and a `short` or'ed into its low half. An array of
the program is a `Vector`, read as `v[i]!` at constant indices below its length. -/
namespace ControlRTT.Lib.CInt

abbrev Byte := BitVec 8

/-! ## Two bytes, high byte first -/

/-- `hi << 8 | lo` on unsigned bytes. -/
def joinBytes (hi lo : Byte) : Nat := hi.toNat <<< 8 ||| lo.toNat

theorem joinBytes_eq (hi lo : Byte) : joinBytes hi lo = 256 * hi.toNat + lo.toNat := by
  rw [joinBytes, ← Nat.shiftLeft_add_eq_or_of_lt lo.isLt, Nat.shiftLeft_eq]
  omega

theorem joinBytes_lt (hi lo : Byte) : joinBytes hi lo < 65536 := by
  have h := hi.isLt
  have l := lo.isLt
  rw [joinBytes_eq]
  omega

/-- The two bytes read as a two's complement 16-bit number. -/
def signedBytes (hi lo : Byte) : Int := (hi ++ lo).toInt

theorem signedBytes_eq (hi lo : Byte) :
    signedBytes hi lo =
      if joinBytes hi lo < 32768 then (joinBytes hi lo : Int) else joinBytes hi lo - 65536 := by
  have hn : (hi ++ lo).toNat = joinBytes hi lo := BitVec.toNat_append hi lo
  have hlt := joinBytes_lt hi lo
  rw [signedBytes, BitVec.toInt_eq_toNat_cond, hn]
  split <;> split <;> omega

/-! ## The conversion to `short` -/

/-- Conversion to `short`: the low 16 bits, as a signed number. -/
def toShort (x : Int) : Int := x.bmod 65536

theorem toShort_of_range {x : Int} (lo : -32768 ≤ x) (hi : x < 32768) : toShort x = x :=
  Int.bmod_eq_of_le_mul_two (by omega) (by omega)

/-! ## A code and a `short` in one word -/

/-- `w |= data` for a `short` `data`: the sign bits of `data` reach the high half. -/
def orShort (w : BitVec 32) (data : Int) : BitVec 32 := w ||| BitVec.ofInt 32 data

/-- `w >> 16` on a signed word. -/
def highHalf (w : BitVec 32) : BitVec 32 := w.sshiftRight 16

/-- `w & 0xFFFF`. -/
def lowHalf (w : BitVec 32) : BitVec 32 := w &&& 0xFFFF#32

theorem lowHalf_toNat (w : BitVec 32) : (lowHalf w).toNat = w.toNat % 65536 := by
  simpa [lowHalf] using Nat.and_two_pow_sub_one_eq_mod w.toNat 16

/-- The byte at bits 16..23, as a conversion of `w >> 16` to `uint8_t` leaves it. -/
theorem highHalf_byte (w : BitVec 32) :
    ((highHalf w).setWidth 8).toNat = w.toNat / 65536 % 256 := by
  have h : (highHalf w).setWidth 8 = w.extractLsb' 16 8 := by
    apply BitVec.eq_of_getLsbD_eq
    intro i hi
    rw [BitVec.getLsbD_setWidth, highHalf, BitVec.getLsbD_sshiftRight, BitVec.getLsbD_extractLsb']
    simp [hi, show ¬ 32 ≤ i by omega, show 16 + i < 32 by omega]
  rw [h, BitVec.extractLsb'_toNat, Nat.shiftRight_eq_div_pow]

/-- The low byte, as a conversion of `w & 0xFFFF` to `uint8_t` leaves it. -/
theorem lowHalf_byte (w : BitVec 32) : ((lowHalf w).setWidth 8).toNat = w.toNat % 256 := by
  rw [BitVec.toNat_setWidth, lowHalf_toNat]
  omega

/-- A word below `2^31` is shifted as a natural number. -/
theorem highHalf_toInt {w : BitVec 32} (h : w.toNat < 2 ^ 31) :
    (highHalf w).toInt = (w.toNat / 65536 : Nat) := by
  have hm : w.msb = false := by rw [BitVec.msb_eq_decide]; simpa using h
  have hn : (highHalf w).toNat = w.toNat / 65536 := by
    rw [highHalf, BitVec.toNat_sshiftRight_of_msb_false hm, Nat.shiftRight_eq_div_pow]
  rw [BitVec.toInt_eq_toNat_of_lt (by omega), hn]

theorem lowHalf_toInt (w : BitVec 32) : (lowHalf w).toInt = (w.toNat % 65536 : Nat) := by
  have h := lowHalf_toNat w
  rw [BitVec.toInt_eq_toNat_of_lt (by omega), h]

/-- A nonnegative `short` lands in the low half and leaves the code alone. -/
theorem orShort_of_nonneg {k : Nat} {data : Int} (hk : k < 65536) (lo : 0 ≤ data)
    (hi : data < 65536) :
    (orShort (BitVec.ofNat 32 (65536 * k)) data).toNat = 65536 * k + data.toNat := by
  obtain ⟨n, rfl⟩ := Int.eq_ofNat_of_zero_le lo
  have hn : n < 2 ^ 16 := by omega
  have hor := Nat.two_pow_add_eq_or_of_lt hn k
  simp only [orShort, BitVec.toNat_or, BitVec.toNat_ofNat, BitVec.toNat_ofInt]
  rw [Nat.mod_eq_of_lt (by omega), show ((n : Int) % (2 ^ 32 : Nat)).toNat = n by omega]
  simpa using hor.symm

/-! ## Unsigned words -/

/-- Unsigned 32-bit arithmetic keeps the low 32 bits. -/
def u32 (n : Nat) : Nat := n % 2 ^ 32

theorem u32_of_lt {n : Nat} (h : n < 2 ^ 32) : u32 n = n := Nat.mod_eq_of_lt h

/-- `a - b` on unsigned words. -/
def usub (a b : Nat) : Nat := u32 (a + 2 ^ 32 - b)

theorem usub_of_le {a b : Nat} (h : b ≤ a) (ha : a < 2 ^ 32) : usub a b = a - b := by
  unfold usub u32
  omega

end ControlRTT.Lib.CInt

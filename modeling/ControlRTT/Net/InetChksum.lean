import ControlRTT.Lib.OnesComplement

/-! # The Internet sum

`components/net/lwip-2.0.2/src/core/inet_chksum.c` has three versions of `lwip_standard_chksum`: by
bytes, by 16-bit words, and by pairs of 32-bit words with the carries added back. Data may begin at
any address. On a little-endian machine each version gives the sum, with end-around carry, of the
number that the bytes are (`lwipStandardChksum_toNat`). -/
namespace ControlRTT.Net.InetChksum
open ControlRTT.Lib.OnesComplement

abbrev U8 := BitVec 8
abbrev U16 := BitVec 16
abbrev U32 := BitVec 32

/-- The macro text of `PP_HTONS` and of `SWAP_BYTES_IN_WORD`. -/
def swapBytes {n : Nat} (w : BitVec n) : BitVec n :=
  ((w &&& 0xff) <<< 8) ||| ((w &&& 0xff00) >>> 8)

/-- On a little-endian machine. -/
def lwipHtons (n : U16) : U16 := swapBytes n

def swapBytesInWord (w : U32) : U32 := swapBytes w

def foldU32T (u : U32) : U32 := (u >>> 16) + (u &&& 0x0000ffff)

def word16 (b0 b1 : U8) : U16 := b1 ++ b0

def word32 (b0 b1 b2 b3 : U8) : U32 := word16 b2 b3 ++ word16 b0 b1

/-- The number the bytes are, the first one its lowest digit. -/
def num (data : List U8) : Nat := Nat.ofDigits 256 (data.map BitVec.toNat)

/-- `LWIP_CHKSUM_ALGORITHM` -/
inductive Algorithm where
  | octets | words | longs
  deriving DecidableEq, Repr

/-- The bytes two at a time, a last one by itself. -/
def sumOctets : List U8 → U32 → U32
  | b0 :: b1 :: rest, acc =>
    sumOctets rest (acc + ((b0.setWidth 16 <<< 8) ||| b1.setWidth 16).setWidth 32)
  | [b], acc => acc + (b.setWidth 16 <<< 8).setWidth 32
  | [], acc => acc

/-- `lwip_standard_chksum`, version 1 -/
def lwipStandardChksum1 (data : List U8) : U16 :=
  let acc := foldU32T (sumOctets data 0)
  let acc := if acc &&& 0xffff0000 ≠ 0 then foldU32T acc else acc
  lwipHtons (acc.setWidth 16)

/-- The 16-bit words from an even address on, and what is left behind the last one. -/
def sumWords : List U8 → U32 → U32 × List U8
  | b0 :: b1 :: rest, sum => sumWords rest (sum + (word16 b0 b1).setWidth 32)
  | left, sum => (sum, left)

/-- The byte before the first even address, the high byte of `t`. -/
def takeOdd : Bool → List U8 → U8 × List U8
  | true, b :: rest => (b, rest)
  | _, data => (0, data)

/-- What versions 2 and 3 end with: the left-over byte is the low byte of `t`. -/
def endBytes (odd : Bool) (t1 : U8) (sum : U32) (left : List U8) : U16 :=
  let sum := sum + (word16 (left.headD 0) t1).setWidth 32
  let sum := foldU32T (foldU32T sum)
  let sum := if odd then swapBytesInWord sum else sum
  sum.setWidth 16

/-- `lwip_standard_chksum`, version 2 -/
def lwipStandardChksum2 (dataptr : Nat) (data : List U8) : U16 :=
  let odd := decide (dataptr % 2 = 1)
  let (t1, pb) := takeOdd odd data
  let (sum, left) := sumWords pb 0
  endBytes odd t1 sum left

/-- An addition with the carry added back. -/
def addCarry (sum w : U32) : U32 :=
  let tmp := sum + w
  if tmp < sum then tmp + 1 else tmp

/-- Two 32-bit words at a time. -/
def sumLongs : List U8 → U32 → U32 × List U8
  | b0 :: b1 :: b2 :: b3 :: b4 :: b5 :: b6 :: b7 :: rest, sum =>
    sumLongs rest (addCarry (addCarry sum (word32 b0 b1 b2 b3)) (word32 b4 b5 b6 b7))
  | left, sum => (sum, left)

/-- The word before the first address that 4 divides. -/
def takeWord (unaligned : Bool) : List U8 → U32 × List U8
  | b0 :: b1 :: rest =>
    if unaligned then ((word16 b0 b1).setWidth 32, rest) else (0, b0 :: b1 :: rest)
  | data => (0, data)

/-- `lwip_standard_chksum`, version 3 -/
def lwipStandardChksum3 (dataptr : Nat) (data : List U8) : U16 :=
  let odd := decide (dataptr % 2 = 1)
  let (t1, pb) := takeOdd odd data
  let ps := dataptr + (data.length - pb.length)
  let (sum, pl) := takeWord (ps % 4 ≠ 0) pb
  let (sum, pl) := sumLongs pl sum
  let (sum, left) := sumWords pl (foldU32T sum)
  endBytes odd t1 sum left

/-- `LWIP_CHKSUM`: the sum of the bytes that begin at the address. -/
def lwipStandardChksum : Algorithm → Nat → List U8 → U16
  | .octets => fun _ => lwipStandardChksum1
  | .words => lwipStandardChksum2
  | .longs => lwipStandardChksum3

theorem foldU32T_toNat (u : U32) :
    (foldU32T u).toNat = u.toNat / 65536 + u.toNat % 65536 := by
  have h := u.isLt
  have h1 : (u &&& 0x0000ffff).toNat = u.toNat % 65536 := by
    simpa using Nat.and_two_pow_sub_one_eq_mod u.toNat 16
  rw [foldU32T, BitVec.toNat_add, BitVec.toNat_ushiftRight, h1, Nat.shiftRight_eq_div_pow]
  omega

theorem lowByte_toNat {n : Nat} (w : BitVec n) (hn : 16 ≤ n) :
    (w &&& 0xff).toNat = w.toNat % 256 := by
  have h1 : 255 < 2 ^ n := lt_of_lt_of_le (by decide) (Nat.pow_le_pow_right (by decide) hn)
  have h2 : (0xff : BitVec n).toNat = 2 ^ 8 - 1 := Nat.mod_eq_of_lt h1
  rw [BitVec.toNat_and, h2]
  exact Nat.and_two_pow_sub_one_eq_mod w.toNat 8

theorem swapBytes_toNat {n : Nat} (w : BitVec n) (hn : 16 ≤ n) :
    (swapBytes w).toNat = w.toNat % 256 * 256 + w.toNat / 256 % 256 := by
  have hp : 2 ^ 16 ≤ 2 ^ n := Nat.pow_le_pow_right (by decide) hn
  have h1 : (w &&& 0xff00) >>> 8 = (w >>> 8) &&& 0xff := by
    rw [BitVec.ushiftRight_and_distrib]
    congr 1
    apply BitVec.eq_of_toNat_eq
    simp only [BitVec.toNat_ushiftRight, BitVec.ofNat_eq_ofNat, BitVec.toNat_ofNat]
    rw [Nat.mod_eq_of_lt (by omega), Nat.mod_eq_of_lt (by omega)]
    rfl
  have h2 := lowByte_toNat w hn
  have h3 := lowByte_toNat (w >>> 8) hn
  rw [BitVec.toNat_ushiftRight, Nat.shiftRight_eq_div_pow] at h3
  rw [swapBytes, h1, BitVec.toNat_or, h3, BitVec.toNat_shiftLeft, h2,
    Nat.mod_eq_of_lt (by rw [Nat.shiftLeft_eq]; omega),
    ← Nat.shiftLeft_add_eq_or_of_lt (Nat.mod_lt _ (by decide)), Nat.shiftLeft_eq]

theorem swapBytesInWord_toNat (w : U32) :
    (swapBytesInWord w).toNat = w.toNat % 256 * 256 + w.toNat / 256 % 256 :=
  swapBytes_toNat w (by decide)

theorem lwipHtons_toNat (n : U16) :
    (lwipHtons n).toNat = n.toNat % 256 * 256 + n.toNat / 256 := by
  have h := n.isLt
  rw [lwipHtons, swapBytes_toNat n le_rfl]
  omega

@[simp] theorem word16_toNat (b0 b1 : U8) :
    (word16 b0 b1).toNat = b0.toNat + 256 * b1.toNat := by
  rw [word16, BitVec.toNat_append, ← Nat.shiftLeft_add_eq_or_of_lt b0.isLt, Nat.shiftLeft_eq]
  omega

@[simp] theorem word32_toNat (b0 b1 b2 b3 : U8) :
    (word32 b0 b1 b2 b3).toNat =
      b0.toNat + 256 * b1.toNat + 65536 * b2.toNat + 16777216 * b3.toNat := by
  rw [word32, BitVec.toNat_append, ← Nat.shiftLeft_add_eq_or_of_lt (word16 b0 b1).isLt,
    Nat.shiftLeft_eq, word16_toNat, word16_toNat]
  omega

@[simp] theorem num_nil : num [] = 0 := rfl

@[simp] theorem num_cons (b : U8) (data : List U8) :
    num (b :: data) = b.toNat + 256 * num data := by
  simp [num, Nat.ofDigits_cons]

theorem num_word32 (b0 b1 b2 b3 : U8) (rest : List U8) :
    num (b0 :: b1 :: b2 :: b3 :: rest) = (word32 b0 b1 b2 b3).toNat + 4294967296 * num rest := by
  simp only [num_cons, word32_toNat]
  omega

theorem octets_toNat (b0 b1 : U8) :
    ((b0.setWidth 16 <<< 8) ||| b1.setWidth 16).toNat = 256 * b0.toNat + b1.toNat := by
  have h0 := b0.isLt
  have h1 := b1.isLt
  have h2 : (b0.setWidth 16 <<< 8).toNat = b0.toNat <<< 8 := by
    simp only [BitVec.toNat_shiftLeft, BitVec.toNat_setWidth, Nat.shiftLeft_eq]
    omega
  rw [BitVec.toNat_or, h2, BitVec.toNat_setWidth, Nat.mod_eq_of_lt (by omega),
    ← Nat.shiftLeft_add_eq_or_of_lt h1, Nat.shiftLeft_eq]
  omega

theorem octet_toNat (b : U8) : (b.setWidth 16 <<< 8).toNat = 256 * b.toNat := by
  have h := b.isLt
  simp only [BitVec.toNat_shiftLeft, BitVec.toNat_setWidth, Nat.shiftLeft_eq]
  omega

theorem add_toNat_of_lt (acc : U32) (w : U16) (h : acc.toNat + w.toNat < 2 ^ 32) :
    (acc + w.setWidth 32).toNat = acc.toNat + w.toNat := by
  have hw := w.isLt
  rw [BitVec.toNat_add, BitVec.toNat_setWidth, Nat.mod_eq_of_lt (by omega : w.toNat < 2 ^ 32),
    Nat.mod_eq_of_lt h]

/-- The bytes weighed with the first of each two as the higher one. -/
theorem sumOctets_spec (data : List U8) (acc : U32)
    (h : acc.toNat + (data.length + 1) / 2 * 65535 < 2 ^ 32) :
    rep 65535 (sumOctets data acc).toNat = rep 65535 (acc.toNat + 256 * num data) := by
  induction data, acc using sumOctets.induct with
  | case1 b0 b1 rest acc ih =>
    have h0 := b0.isLt
    have h1 := b1.isLt
    have hw := octets_toNat b0 b1
    have hl : (b0 :: b1 :: rest).length = rest.length + 2 := rfl
    have hs := add_toNat_of_lt acc ((b0.setWidth 16 <<< 8) ||| b1.setWidth 16) (by omega)
    rw [sumOctets, ih (by omega), hs, hw, num_cons, num_cons]
    apply rep_congr_mod <;> omega
  | case2 b acc =>
    have hb := b.isLt
    have hl : [b].length = 1 := rfl
    have hw := octet_toNat b
    rw [sumOctets, add_toNat_of_lt _ _ (by omega), hw]
    simp
  | case3 acc => simp [sumOctets]

theorem length_lt_two {left : List U8}
    (h : ∀ b0 b1 rest, left = b0 :: b1 :: rest → False) : left.length < 2 := by
  match left, h with
  | [], _ => simp
  | [_], _ => simp
  | b0 :: b1 :: rest, h => exact absurd rfl (h b0 b1 rest)

theorem sumWords_spec (data : List U8) (sum : U32)
    (h : sum.toNat + data.length / 2 * 65535 < 2 ^ 32) :
    (sumWords data sum).1.toNat ≤ sum.toNat + data.length / 2 * 65535 ∧
      (sumWords data sum).2.length = data.length % 2 ∧
      rep 65535 ((sumWords data sum).1.toNat + num (sumWords data sum).2) =
        rep 65535 (sum.toNat + num data) := by
  induction data, sum using sumWords.induct with
  | case1 b0 b1 rest sum ih =>
    have h0 := b0.isLt
    have h1 := b1.isLt
    have hw := word16_toNat b0 b1
    have hl : (b0 :: b1 :: rest).length = rest.length + 2 := rfl
    have hs := add_toNat_of_lt sum (word16 b0 b1) (by omega)
    obtain ⟨i1, i2, i3⟩ := ih (by omega)
    rw [sumWords]
    refine ⟨by omega, by omega, i3.trans ?_⟩
    rw [hs, hw, num_cons, num_cons]
    apply rep_congr_mod <;> omega
  | case2 left sum hleft =>
    rw [sumWords.eq_2 _ _ hleft]
    have hl := length_lt_two hleft
    exact ⟨Nat.le_add_right .., (Nat.mod_eq_of_lt hl).symm, rfl⟩

theorem addCarry_rep (a b : U32) :
    rep 65535 (addCarry a b).toNat = rep 65535 (a.toNat + b.toNat) := by
  have ha := a.isLt
  have hb := b.isLt
  unfold addCarry
  simp only [BitVec.lt_def]
  apply rep_congr_mod <;> split <;> bv_omega

theorem sumLongs_spec (data : List U8) (sum : U32) :
    (sumLongs data sum).2.length < 8 ∧
      rep 65535 ((sumLongs data sum).1.toNat + num (sumLongs data sum).2) =
        rep 65535 (sum.toNat + num data) := by
  induction data, sum using sumLongs.induct with
  | case1 b0 b1 b2 b3 b4 b5 b6 b7 rest sum ih =>
    rw [sumLongs]
    refine ⟨ih.1, ih.2.trans ?_⟩
    obtain ⟨h1, z1⟩ := rep_eq_rep.mp (addCarry_rep sum (word32 b0 b1 b2 b3))
    obtain ⟨h2, z2⟩ := rep_eq_rep.mp
      (addCarry_rep (addCarry sum (word32 b0 b1 b2 b3)) (word32 b4 b5 b6 b7))
    rw [num_word32, num_word32]
    generalize (word32 b0 b1 b2 b3).toNat = w0 at h1 z1 ⊢
    generalize (word32 b4 b5 b6 b7).toNat = w1 at h2 z2 ⊢
    clear ih
    apply rep_congr_mod <;> omega
  | case2 left sum hleft =>
    rw [sumLongs.eq_2 _ _ hleft]
    refine ⟨?_, rfl⟩
    match left, hleft with
    | [], _ => simp
    | [_], _ => simp
    | [_, _], _ => simp
    | [_, _, _], _ => simp
    | [_, _, _, _], _ => simp
    | [_, _, _, _, _], _ => simp
    | [_, _, _, _, _, _], _ => simp
    | [_, _, _, _, _, _, _], _ => simp
    | b0 :: b1 :: b2 :: b3 :: b4 :: b5 :: b6 :: b7 :: rest, hleft =>
      exact absurd rfl (hleft b0 b1 b2 b3 b4 b5 b6 b7 rest)

theorem foldU32T_rep (u : U32) : rep 65535 (foldU32T u).toNat = rep 65535 u.toNat := by
  rw [foldU32T_toNat]
  exact rep_fold u.toNat

theorem foldU32T_toNat_of_lt {u : U32} (h : u.toNat ≤ 131070) :
    (foldU32T u).toNat = rep 65535 u.toNat := by
  rw [← foldU32T_rep, rep_of_le]
  rw [foldU32T_toNat]
  omega

theorem foldU32T_twice (u : U32) : (foldU32T (foldU32T u)).toNat = rep 65535 u.toNat := by
  have h := u.isLt
  rw [foldU32T_toNat_of_lt, foldU32T_rep]
  rw [foldU32T_toNat]
  omega

theorem swapBytesInWord_rep {w : U32} (h : w.toNat ≤ 65535) :
    (swapBytesInWord w).toNat = rep 65535 (256 * w.toNat) := by
  rw [swapBytesInWord_toNat, Nat.mod_eq_of_lt (by omega : w.toNat / 256 < 256)]
  apply rep_eq
  · omega
  · apply (ZMod.natCast_eq_natCast_iff' _ _ _).mpr
    omega
  · omega

theorem lwipHtons_rep (n : U16) : (lwipHtons n).toNat = rep 65535 (256 * n.toNat) := by
  have h := n.isLt
  rw [lwipHtons_toNat]
  apply rep_eq
  · omega
  · apply (ZMod.natCast_eq_natCast_iff' _ _ _).mpr
    omega
  · omega

theorem endBytes_toNat (odd : Bool) (t1 : U8) (sum : U32) (left : List U8) (hl : left.length < 2)
    (h : sum.toNat + (word16 (left.headD 0) t1).toNat < 2 ^ 32) :
    (endBytes odd t1 sum left).toNat =
      rep 65535 (shift 256 odd (sum.toNat + (256 * t1.toNat + num left))) := by
  have ht : (word16 (left.headD 0) t1).toNat = 256 * t1.toNat + num left := by
    rw [word16_toNat]
    match left, hl with
    | [], _ => simp
    | [b], _ => simp [Nat.add_comm]
  have hs := foldU32T_twice (sum + (word16 (left.headD 0) t1).setWidth 32)
  rw [add_toNat_of_lt _ _ h, ht] at hs
  have hle := rep_le (m := 65535) (sum.toNat + (256 * t1.toNat + num left))
  unfold endBytes
  cases odd
  · simp only [Bool.false_eq_true, if_false, BitVec.toNat_setWidth, hs, shift_false]
    omega
  · have hw := swapBytesInWord_rep (hs ▸ hle)
    rw [hs, rep_mul] at hw
    have hle' := rep_le (m := 65535) (256 * (sum.toNat + (256 * t1.toNat + num left)))
    simp only [if_true, BitVec.toNat_setWidth, hw, shift_true]
    omega

theorem takeOdd_rep (odd : Bool) (data : List U8) :
    rep 65535 (shift 256 odd (256 * (takeOdd odd data).1.toNat + num (takeOdd odd data).2)) =
      rep 65535 (num data) := by
  fun_cases takeOdd odd data with
  | case1 b rest =>
    simp only [shift_true, num_cons]
    apply rep_congr_mod <;> omega
  | case2 odd data h =>
    cases odd with
    | false => simp
    | true =>
      cases data with
      | nil => simp
      | cons b rest => exact absurd rfl (h b rest rfl)

theorem takeOdd_length (odd : Bool) (data : List U8) :
    (takeOdd odd data).2.length ≤ data.length ∧
      (0 < (takeOdd odd data).1.toNat → (takeOdd odd data).2.length < data.length) := by
  fun_cases takeOdd odd data <;> simp

theorem takeWord_spec (unaligned : Bool) (data : List U8) :
    (takeWord unaligned data).1.toNat ≤ 65535 ∧
      rep 65535 ((takeWord unaligned data).1.toNat + num (takeWord unaligned data).2) =
        rep 65535 (num data) := by
  fun_cases takeWord unaligned data with
  | case1 b0 b1 rest h =>
    have h0 := b0.isLt
    have h1 := b1.isLt
    simp only [BitVec.toNat_setWidth, word16_toNat, num_cons]
    rw [Nat.mod_eq_of_lt (by omega)]
    refine ⟨by omega, ?_⟩
    apply rep_congr_mod <;> omega
  | case2 b0 b1 rest h => simp
  | case3 data h => simp

theorem le_of_high_eq_zero {u : U32} (h : u &&& 0xffff0000 = 0) : u.toNat ≤ 65535 := by
  have h1 : (u >>> 16) &&& 0xffff = 0 := by
    have := BitVec.ushiftRight_and_distrib u 0xffff0000 16
    rw [h] at this
    exact this.symm
  have h2 := congrArg BitVec.toNat h1
  have h3 : ((u >>> 16) &&& 0xffff).toNat = (u >>> 16).toNat % 65536 := by
    simpa using Nat.and_two_pow_sub_one_eq_mod (u >>> 16).toNat 16
  rw [h3, BitVec.toNat_ushiftRight, Nat.shiftRight_eq_div_pow] at h2
  have hu := u.isLt
  simp only [BitVec.ofNat_eq_ofNat, BitVec.toNat_ofNat] at h2
  omega

theorem rep_swap_swap (n : Nat) : rep 65535 (256 * (256 * n)) = rep 65535 n := by
  apply rep_congr_mod <;> omega

theorem lwipStandardChksum1_toNat (data : List U8) (h : data.length ≤ 0x20000) :
    (lwipStandardChksum1 data).toNat = rep 65535 (num data) := by
  have h0 : (0 : U32).toNat = 0 := rfl
  have hs := sumOctets_spec data 0 (by omega)
  rw [h0, Nat.zero_add] at hs
  have hf := foldU32T_rep (sumOctets data 0)
  have hl : (foldU32T (sumOctets data 0)).toNat ≤ 131070 := by
    have := (sumOctets data 0).isLt
    rw [foldU32T_toNat]
    omega
  have key : ∀ acc : U32, acc.toNat = rep 65535 (256 * num data) →
      (lwipHtons (acc.setWidth 16)).toNat = rep 65535 (num data) := by
    intro acc ha
    have hle := rep_le (m := 65535) (256 * num data)
    rw [lwipHtons_rep, BitVec.toNat_setWidth, Nat.mod_eq_of_lt (by omega), ha, rep_mul,
      rep_swap_swap]
  unfold lwipStandardChksum1
  simp only
  split
  · apply key
    rw [foldU32T_toNat_of_lt hl, hf, hs]
  · rename_i hz
    apply key
    rw [← hs, ← hf, rep_of_le (le_of_high_eq_zero (not_not.mp hz))]

theorem lwipStandardChksum2_toNat (dataptr : Nat) (data : List U8) (h : data.length ≤ 0x20000) :
    (lwipStandardChksum2 dataptr data).toNat = rep 65535 (num data) := by
  rw [lwipStandardChksum2]
  set odd := decide (dataptr % 2 = 1)
  obtain ⟨hlen, hlt⟩ := takeOdd_length odd data
  set t1 := (takeOdd odd data).1
  set pb := (takeOdd odd data).2
  have h0 : (0 : U32).toNat = 0 := rfl
  obtain ⟨s1, s2, s3⟩ := sumWords_spec pb 0 (by omega)
  rw [h0] at s1 s3
  have hb := t1.isLt
  have hd := ((sumWords pb 0).2.headD 0).isLt
  have hz : (sumWords pb 0).2.length = 0 → ((sumWords pb 0).2.headD 0).toNat = 0 := by
    intro h0
    rw [List.eq_nil_of_length_eq_zero h0]
    rfl
  have hw := word16_toNat ((sumWords pb 0).2.headD 0) t1
  have he := endBytes_toNat odd t1 (sumWords pb 0).1 (sumWords pb 0).2 (by omega) (by omega)
  rw [← takeOdd_rep odd data]
  refine he.trans (rep_shift_congr ?_)
  rw [show ∀ a b c : Nat, a + (b + c) = (a + c) + b by omega, rep_add_congr s3 rfl, Nat.zero_add,
    Nat.add_comm]

theorem lwipStandardChksum3_toNat (dataptr : Nat) (data : List U8) :
    (lwipStandardChksum3 dataptr data).toNat = rep 65535 (num data) := by
  rw [lwipStandardChksum3]
  set odd := decide (dataptr % 2 = 1)
  set t1 := (takeOdd odd data).1
  set pb := (takeOdd odd data).2
  set al := decide ((dataptr + (data.length - pb.length)) % 4 ≠ 0)
  obtain ⟨w1, w2⟩ := takeWord_spec al pb
  set w := takeWord al pb
  obtain ⟨l1, l2⟩ := sumLongs_spec w.2 w.1
  set l := sumLongs w.2 w.1
  have hf : (foldU32T l.1).toNat ≤ 131070 := by
    have := l.1.isLt
    rw [foldU32T_toNat]
    omega
  obtain ⟨s1, s2, s3⟩ := sumWords_spec l.2 (foldU32T l.1) (by omega)
  have hw := (word16 ((sumWords l.2 (foldU32T l.1)).2.headD 0) t1).isLt
  have he := endBytes_toNat odd t1 (sumWords l.2 (foldU32T l.1)).1 (sumWords l.2 (foldU32T l.1)).2
    (by omega) (by omega)
  rw [← takeOdd_rep odd data]
  refine he.trans (rep_shift_congr ?_)
  rw [show ∀ a b c : Nat, a + (b + c) = (a + c) + b by omega, rep_add_congr s3 rfl,
    rep_add_congr (rep_add_congr (foldU32T_rep l.1) rfl) rfl, rep_add_congr l2 rfl,
    rep_add_congr w2 rfl,
    Nat.add_comm]

/-- The first two versions are for at most 2^17 bytes. -/
def Algorithm.Fits : Algorithm → Nat → Prop
  | .octets, len => len ≤ 0x20000
  | .words, len => len ≤ 0x20000
  | .longs, _ => True

theorem lwipStandardChksum_toNat (alg : Algorithm) (dataptr : Nat) (data : List U8)
    (h : alg.Fits data.length) :
    (lwipStandardChksum alg dataptr data).toNat = rep 65535 (num data) := by
  cases alg with
  | octets => exact lwipStandardChksum1_toNat data h
  | words => exact lwipStandardChksum2_toNat dataptr data h
  | longs => exact lwipStandardChksum3_toNat dataptr data

end ControlRTT.Net.InetChksum

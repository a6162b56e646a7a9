import Mathlib.Algebra.Order.Ring.Int

/-! # Find first set (kservice.c)

`__rt_ffs` looks up the lowest bit of the first byte that is not zero. The position it
returns, less one, is that of the lowest bit set (`rtFfs_spec`). -/
namespace ControlRTT.Kernel.Ffs

def lowestBitBitmap : List Nat :=
  [0, 0, 1, 0, 2, 0, 1, 0, 3, 0, 1, 0, 2, 0, 1, 0,
   4, 0, 1, 0, 2, 0, 1, 0, 3, 0, 1, 0, 2, 0, 1, 0,
   5, 0, 1, 0, 2, 0, 1, 0, 3, 0, 1, 0, 2, 0, 1, 0,
   4, 0, 1, 0, 2, 0, 1, 0, 3, 0, 1, 0, 2, 0, 1, 0,
   6, 0, 1, 0, 2, 0, 1, 0, 3, 0, 1, 0, 2, 0, 1, 0,
   4, 0, 1, 0, 2, 0, 1, 0, 3, 0, 1, 0, 2, 0, 1, 0,
   5, 0, 1, 0, 2, 0, 1, 0, 3, 0, 1, 0, 2, 0, 1, 0,
   4, 0, 1, 0, 2, 0, 1, 0, 3, 0, 1, 0, 2, 0, 1, 0,
   7, 0, 1, 0, 2, 0, 1, 0, 3, 0, 1, 0, 2, 0, 1, 0,
   4, 0, 1, 0, 2, 0, 1, 0, 3, 0, 1, 0, 2, 0, 1, 0,
   5, 0, 1, 0, 2, 0, 1, 0, 3, 0, 1, 0, 2, 0, 1, 0,
   4, 0, 1, 0, 2, 0, 1, 0, 3, 0, 1, 0, 2, 0, 1, 0,
   6, 0, 1, 0, 2, 0, 1, 0, 3, 0, 1, 0, 2, 0, 1, 0,
   4, 0, 1, 0, 2, 0, 1, 0, 3, 0, 1, 0, 2, 0, 1, 0,
   5, 0, 1, 0, 2, 0, 1, 0, 3, 0, 1, 0, 2, 0, 1, 0,
   4, 0, 1, 0, 2, 0, 1, 0, 3, 0, 1, 0, 2, 0, 1, 0]

def lowestBit (byte : BitVec 32) : Nat := lowestBitBitmap.getD byte.toNat 0

/-- The bits are counted from one; zero has none. -/
def rtFfs (value : BitVec 32) : Nat :=
  if value = 0 then 0
  else if value &&& 0xFF ≠ 0 then lowestBit (value &&& 0xFF) + 1
  else if value &&& 0xFF00 ≠ 0 then lowestBit ((value &&& 0xFF00) >>> 8) + 9
  else if value &&& 0xFF0000 ≠ 0 then lowestBit ((value &&& 0xFF0000) >>> 16) + 17
  else lowestBit ((value &&& 0xFF000000) >>> 24) + 25

/-- `i` is the position of the lowest bit set. -/
def IsLowest {w : Nat} (value : BitVec w) (i : Nat) : Prop :=
  value.getLsbD i = true ∧ ∀ j < i, value.getLsbD j = false

/-- Every entry of the table but the first, for zero, is right. -/
theorem lowestBitBitmap_spec : ∀ b : Fin 256, b ≠ 0 →
    b.val.testBit (lowestBitBitmap.getD b.val 0) = true ∧
      ∀ j < lowestBitBitmap.getD b.val 0, b.val.testBit j = false := by
  decide +kernel

/-- The byte of a word at a bit position, as the masks and shifts take it out. -/
theorem getLsbD_byte {value mask : BitVec 32} {k : Nat}
    (hmask : ∀ i < 32, mask.getLsbD i = decide (k ≤ i ∧ i < k + 8)) (i : Nat) :
    ((value &&& mask) >>> k).getLsbD i = (decide (i < 8) && value.getLsbD (k + i)) := by
  rw [BitVec.getLsbD_ushiftRight, BitVec.getLsbD_and]
  by_cases hk : k + i < 32
  · rw [hmask _ hk, Bool.and_comm]
    congr 1
    simp
  · rw [BitVec.getLsbD_of_ge _ _ (by omega), Bool.false_and, Bool.and_false]

/-- The lowest bit of the first byte that is not zero. -/
theorem isLowest_byte {value mask : BitVec 32} {k : Nat}
    (hmask : ∀ i < 32, mask.getLsbD i = decide (k ≤ i ∧ i < k + 8))
    (hzero : ∀ j < k, value.getLsbD j = false) (hne : value &&& mask ≠ 0) :
    IsLowest value (lowestBit ((value &&& mask) >>> k) + k) := by
  have hbyte := fun i => @getLsbD_byte value mask k hmask i
  have hlt : ((value &&& mask) >>> k).toNat < 2 ^ 8 := by
    refine Nat.lt_pow_two_of_testBit _ fun i hi => ?_
    have := hbyte i
    rw [← BitVec.testBit_toNat] at this
    rw [this, decide_eq_false (by omega), Bool.false_and]
  have hpos : ((value &&& mask) >>> k).toNat ≠ 0 := by
    intro hz
    refine hne (BitVec.eq_of_getLsbD_eq fun i hi => ?_)
    rw [BitVec.getLsbD_and, hmask i hi]
    by_cases hin : k ≤ i ∧ i < k + 8
    · have := hbyte (i - k)
      rw [← BitVec.testBit_toNat, hz, Nat.zero_testBit, decide_eq_true (by omega),
        Bool.true_and, Nat.add_sub_cancel' hin.1] at this
      rw [← this, Bool.false_and]
      exact BitVec.getLsbD_zero.symm
    · rw [decide_eq_false hin, Bool.and_false]
      exact BitVec.getLsbD_zero.symm
  obtain ⟨hset, hclear⟩ := lowestBitBitmap_spec ⟨_, hlt⟩ (fun h => hpos (congrArg Fin.val h))
  have hbit := fun i => (BitVec.testBit_toNat ((value &&& mask) >>> k)).trans (hbyte i)
  have hset' := (hbit _).symm.trans hset
  obtain ⟨hlow, hset'⟩ := Bool.and_eq_true_iff.mp hset'
  have hm : lowestBit ((value &&& mask) >>> k) < 8 := of_decide_eq_true hlow
  refine ⟨by rwa [Nat.add_comm] at hset', fun j hj => ?_⟩
  by_cases hjk : j < k
  · exact hzero j hjk
  · have hlt' : j - k < lowestBit ((value &&& mask) >>> k) := by omega
    have hclear' := (hbit (j - k)).symm.trans (hclear (j - k) hlt')
    rwa [decide_eq_true (by omega), Bool.true_and, Nat.add_sub_cancel' (by omega)] at hclear'

/-- A byte that is zero has no bit set. -/
theorem getLsbD_of_byte_zero {value mask : BitVec 32} {k : Nat}
    (hmask : ∀ i < 32, mask.getLsbD i = decide (k ≤ i ∧ i < k + 8)) (h : value &&& mask = 0)
    {i : Nat} (hk : k ≤ i) (hi : i < k + 8) (hlt : i < 32) : value.getLsbD i = false := by
  have hbit := congrArg (BitVec.getLsbD · i) h
  rw [BitVec.getLsbD_and, hmask i hlt, decide_eq_true ⟨hk, hi⟩, Bool.and_true] at hbit
  exact hbit.trans BitVec.getLsbD_zero

theorem rtFfs_spec {value : BitVec 32} (h : value ≠ 0) :
    0 < rtFfs value ∧ IsLowest value (rtFfs value - 1) := by
  have h₀ : ∀ i < 32, (0xFF : BitVec 32).getLsbD i = decide (0 ≤ i ∧ i < 0 + 8) := by decide
  have h₁ : ∀ i < 32, (0xFF00 : BitVec 32).getLsbD i = decide (8 ≤ i ∧ i < 8 + 8) := by decide
  have h₂ : ∀ i < 32, (0xFF0000 : BitVec 32).getLsbD i = decide (16 ≤ i ∧ i < 16 + 8) := by
    decide
  have h₃ : ∀ i < 32, (0xFF000000 : BitVec 32).getLsbD i = decide (24 ≤ i ∧ i < 24 + 8) := by
    decide
  unfold rtFfs
  rw [if_neg h]
  by_cases hb₀ : value &&& 0xFF = 0
  · have z₀ : ∀ j < 8, value.getLsbD j = false := fun j hj =>
      getLsbD_of_byte_zero h₀ hb₀ (Nat.zero_le j) (by omega) (by omega)
    rw [if_neg (not_not_intro hb₀)]
    by_cases hb₁ : value &&& 0xFF00 = 0
    · have z₁ : ∀ j < 16, value.getLsbD j = false := fun j hj => by
        by_cases hj' : j < 8
        · exact z₀ j hj'
        · exact getLsbD_of_byte_zero h₁ hb₁ (by omega) (by omega) (by omega)
      rw [if_neg (not_not_intro hb₁)]
      by_cases hb₂ : value &&& 0xFF0000 = 0
      · have z₂ : ∀ j < 24, value.getLsbD j = false := fun j hj => by
          by_cases hj' : j < 16
          · exact z₁ j hj'
          · exact getLsbD_of_byte_zero h₂ hb₂ (by omega) (by omega) (by omega)
        rw [if_neg (not_not_intro hb₂)]
        have hb₃ : value &&& 0xFF000000 ≠ 0 := by
          intro hb₃
          refine h (BitVec.eq_of_getLsbD_eq fun i hi => ?_)
          refine Eq.trans ?_ BitVec.getLsbD_zero.symm
          by_cases hi' : i < 24
          · exact z₂ i hi'
          · exact getLsbD_of_byte_zero h₃ hb₃ (by omega) (by omega) hi
        exact ⟨Nat.succ_pos _, isLowest_byte h₃ z₂ hb₃⟩
      · rw [if_pos hb₂]
        exact ⟨Nat.succ_pos _, isLowest_byte h₂ z₁ hb₂⟩
    · rw [if_pos hb₁]
      exact ⟨Nat.succ_pos _, isLowest_byte h₁ z₀ hb₁⟩
  · rw [if_pos hb₀]
    have := isLowest_byte h₀ (fun j hj => absurd hj (Nat.not_lt_zero j)) hb₀
    rw [BitVec.ushiftRight_zero] at this
    exact ⟨Nat.succ_pos _, this⟩

end ControlRTT.Kernel.Ffs

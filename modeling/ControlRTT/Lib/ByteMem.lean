import Mathlib.Data.BitVec

/-! # Bytes of a 32-bit address space

A word is four bytes, the low one first; its address may be any. -/
namespace ControlRTT.Lib.ByteMem

abbrev Bytes := BitVec 32 → BitVec 8

def load32 (m : Bytes) (a : BitVec 32) : BitVec 32 := m (a + 3) ++ m (a + 2) ++ m (a + 1) ++ m a

def store32 (m : Bytes) (a v : BitVec 32) : Bytes := fun b =>
  if (b - a).toNat < 4 then v.extractLsb' (8 * (b - a).toNat) 8 else m b

variable {m m' : Bytes} {a : BitVec 32}

theorem load32_store32 (m : Bytes) (a v : BitVec 32) : load32 (store32 m a v) a = v := by
  have hbyte : ∀ i : BitVec 32, i.toNat < 4 →
      store32 m a v (a + i) = v.extractLsb' (8 * i.toNat) 8 := fun i hi => by
    have hsub : a + i - a = i := by
      rw [BitVec.add_comm, BitVec.add_sub_cancel]
    unfold store32
    rw [hsub, if_pos hi]
  have hzero : store32 m a v a = v.extractLsb' 0 8 := by
    simpa using hbyte 0#32 (by decide)
  unfold load32
  rw [hbyte 3 (by decide), hbyte 2 (by decide), hbyte 1 (by decide), hzero]
  refine BitVec.eq_of_getLsbD_eq fun i hi => ?_
  simp only [BitVec.getLsbD_append, BitVec.getLsbD_extractLsb']
  grind

/-- A word is told by its four bytes. -/
theorem load32_congr (h : ∀ b : BitVec 32, (b - a).toNat < 4 → m' b = m b) :
    load32 m' a = load32 m a := by
  have hbyte : ∀ i : BitVec 32, i.toNat < 4 → m' (a + i) = m (a + i) := fun i hi => by
    refine h (a + i) ?_
    rwa [BitVec.add_comm, BitVec.add_sub_cancel]
  have hzero : m' a = m a := by
    simpa using hbyte 0#32 (by decide)
  unfold load32
  rw [hbyte 3 (by decide), hbyte 2 (by decide), hbyte 1 (by decide), hzero]

end ControlRTT.Lib.ByteMem

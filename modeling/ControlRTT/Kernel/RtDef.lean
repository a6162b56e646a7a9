import ControlRTT.Lib.CInt

/-! # Macros of rtdef.h

Sizes and addresses are `rt_size_t` values, natural numbers below `2 ^ 32`. -/
namespace ControlRTT.Kernel.RtDef
open ControlRTT.Lib.CInt

/-- `RT_ALIGN_SIZE` of rtconfig.h. -/
def rtAlignSize : Nat := 4

/-- `RT_ALIGN_DOWN`: `align` is a power of two, whose multiples have its low bits clear. -/
def rtAlignDown (size align : Nat) : Nat := size / align * align

/-- `RT_ALIGN`; the sum is a 32-bit one. -/
def rtAlign (size align : Nat) : Nat := rtAlignDown (u32 (size + align - 1)) align

theorem rtAlignDown_le (size align : Nat) : rtAlignDown size align ≤ size :=
  Nat.div_mul_le_self size align

theorem dvd_rtAlignDown (size align : Nat) : align ∣ rtAlignDown size align :=
  Nat.dvd_mul_left align _

theorem dvd_rtAlign (size align : Nat) : align ∣ rtAlign size align := dvd_rtAlignDown _ align

/-- Aligning to four bytes adds at most three, unless the sum does not fit. -/
theorem rtAlign_four {size : Nat} (h : size + 3 < 2 ^ 32) :
    size ≤ rtAlign size rtAlignSize ∧ rtAlign size rtAlignSize < size + 4 ∧
      4 ∣ rtAlign size rtAlignSize := by
  refine ⟨?_, ?_, dvd_rtAlignDown _ _⟩ <;>
    simp only [rtAlign, rtAlignDown, rtAlignSize, u32] <;> omega

end ControlRTT.Kernel.RtDef

import Mathlib.Algebra.CharP.Two
import Mathlib.Algebra.Polynomial.Div
import Mathlib.RingTheory.Polynomial.Basic
import Mathlib.Algebra.Field.ZMod
import Mathlib.Tactic.LinearCombination

/-! # Cyclic redundancy checks

The register takes a message bit by bit, the most significant one first: it is shifted, and the
polynomial is subtracted if what is shifted out and the bit differ. What it holds is the remainder
of the message, with as many zero bits behind it as the register has, by the polynomial
(`modByMonic_generator`). -/
namespace ControlRTT.Lib.Crc
open Polynomial

variable {w n : Nat} {bits bits' : List Bool}

/-! ## The register -/

def crcBit (poly r : BitVec w) (b : Bool) : BitVec w :=
  (r <<< 1) ^^^ (if r.msb ^^ b then poly else 0)

def crcBits (poly r : BitVec w) (bits : List Bool) : BitVec w := bits.foldl (crcBit poly) r

/-- The bits of a word, the most significant one first. -/
def bitsOf (b : BitVec n) : List Bool := (List.range n).map b.getMsbD

@[simp] theorem length_bitsOf (b : BitVec n) : (bitsOf b).length = n := by simp [bitsOf]

theorem bitsOf_xor (a b : BitVec n) :
    bitsOf (a ^^^ b) = List.zipWith xor (bitsOf a) (bitsOf b) := by
  simp [bitsOf, List.zipWith_map, List.zipWith_self]

theorem crcBit_xor (poly r r' : BitVec w) (b b' : Bool) :
    crcBit poly (r ^^^ r') (b ^^ b') = crcBit poly r b ^^^ crcBit poly r' b' := by
  have hbit : ((r ^^^ r').msb ^^ (b ^^ b')) = ((r.msb ^^ b) ^^ (r'.msb ^^ b')) := by
    rw [BitVec.msb_xor]
    cases r.msb <;> cases r'.msb <;> cases b <;> cases b' <;> rfl
  have hpoly : ∀ x y : Bool, (if x ^^ y then poly else 0) =
      (if x then poly else 0) ^^^ (if y then poly else 0) := by
    intro x y
    cases x <;> cases y <;> simp
  unfold crcBit
  rw [hbit, hpoly, BitVec.shiftLeft_xor_distrib]
  ac_rfl

/-- The register is linear in what it holds and in the message together. -/
theorem crcBits_xor (poly r r' : BitVec w) (h : bits.length = bits'.length) :
    crcBits poly (r ^^^ r') (List.zipWith xor bits bits') =
      crcBits poly r bits ^^^ crcBits poly r' bits' := by
  induction bits generalizing r r' bits' with
  | nil =>
    obtain rfl := List.length_eq_zero_iff.mp h.symm
    rfl
  | cons b bits ih =>
    cases bits' with
    | nil => cases h
    | cons b' bits' =>
      have hstep := ih (crcBit poly r b) (crcBit poly r' b') (Nat.succ.inj h)
      rw [← crcBit_xor] at hstep
      exact hstep

/-! ## The remainder -/

/-- The polynomial whose coefficients are the bits of a word. -/
noncomputable def toPoly (r : BitVec w) : (ZMod 2)[X] :=
  ∑ i ∈ Finset.range w, if r.getLsbD i then X ^ i else 0

/-- The polynomial of a message, the first bit being that of the highest power. -/
noncomputable def ofBits (bits : List Bool) : (ZMod 2)[X] :=
  bits.foldl (fun p b => p * X + if b then 1 else 0) 0

/-- The polynomial that the register divides by: its highest power is not stored. -/
noncomputable def generator (poly : BitVec w) : (ZMod 2)[X] := X ^ w + toPoly poly

theorem add_self (p : (ZMod 2)[X]) : p + p = 0 := CharTwo.add_self_eq_zero p

theorem toPoly_xor (a b : BitVec w) : toPoly (a ^^^ b) = toPoly a + toPoly b := by
  unfold toPoly
  rw [← Finset.sum_add_distrib]
  refine Finset.sum_congr rfl fun i _ => ?_
  rw [BitVec.getLsbD_xor]
  cases a.getLsbD i <;> cases b.getLsbD i <;> simp [add_self]

@[simp] theorem toPoly_zero : toPoly (0#w) = 0 := by simp [toPoly]

theorem toPoly_twoPow {k : Nat} (h : k < w) : toPoly (BitVec.twoPow w k) = X ^ k := by
  unfold toPoly
  rw [Finset.sum_eq_single_of_mem k (Finset.mem_range.mpr h)]
  · simp [h]
  · intro i _ hne
    simp [BitVec.getLsbD_twoPow, Ne.symm hne]

theorem toPoly_shift (r : BitVec w) :
    toPoly (r <<< 1) + (if r.msb then X ^ w else 0) = toPoly r * X := by
  cases w with
  | zero => simp [toPoly, BitVec.msb_eq_getLsbD_last]
  | succ n =>
    have hlow : toPoly (r <<< 1) =
      ∑ i ∈ Finset.range n, if r.getLsbD i then X ^ (i + 1) else 0 := by
      unfold toPoly
      rw [Finset.sum_range_succ']
      refine (congrArg₂ (· + ·) (Finset.sum_congr rfl fun i hi => ?_) ?_).trans (add_zero _)
      · have hlt := Finset.mem_range.mp hi
        simp [hlt, BitVec.getLsbD_eq_getElem (Nat.lt_succ_of_lt hlt)]
      · simp
    have hmsb : r.msb = r.getLsbD n := BitVec.msb_eq_getLsbD_last r
    rw [hlow, hmsb, toPoly, Finset.sum_mul, Finset.sum_range_succ]
    congr 1
    · refine Finset.sum_congr rfl fun i _ => ?_
      split <;> simp [pow_succ]
    · split <;> simp [pow_succ]

theorem degree_toPoly_lt (r : BitVec w) : (toPoly r).degree < w := by
  refine mem_degreeLT.mp (Submodule.sum_mem _ fun i hi => mem_degreeLT.mpr ?_)
  have hlt := Finset.mem_range.mp hi
  split
  · rw [degree_X_pow]
    exact_mod_cast hlt
  · rw [degree_zero]
    exact WithBot.bot_lt_coe w

/-- A bit more of the message. -/
theorem toPoly_crcBit (poly r : BitVec w) (b : Bool) :
    ∃ q, toPoly r * X + (if b then 1 else 0) * X ^ w =
      q * generator poly + toPoly (crcBit poly r b) := by
  have hshift := toPoly_shift r
  unfold crcBit generator
  rw [toPoly_xor, ← hshift]
  cases r.msb <;> cases b
  · exact ⟨0, by simp⟩
  · refine ⟨1, ?_⟩
    simp only [Bool.false_bne, Bool.false_eq_true, if_false, if_true]
    linear_combination - add_self (toPoly poly)
  · refine ⟨1, ?_⟩
    simp only [Bool.bne_false, Bool.false_eq_true, if_false, if_true]
    linear_combination - add_self (toPoly poly)
  · refine ⟨0, ?_⟩
    simp only [bne_self_eq_false, Bool.false_eq_true, if_false, if_true, BitVec.ofNat_eq_ofNat,
      toPoly_zero]
    linear_combination add_self (X ^ w)

theorem exists_quotient (poly : BitVec w) (bits : List Bool) :
    ∃ q, ofBits bits * X ^ w = q * generator poly + toPoly (crcBits poly 0 bits) := by
  induction bits using List.reverseRecOn with
  | nil => exact ⟨0, by simp [ofBits, crcBits]⟩
  | append_singleton bits b ih =>
    obtain ⟨q, hq⟩ := ih
    obtain ⟨q', hq'⟩ := toPoly_crcBit poly (crcBits poly 0 bits) b
    have hlast : ofBits (bits ++ [b]) = ofBits bits * X + if b then 1 else 0 :=
    List.foldl_concat _ _ _ _
    have hreg : crcBits poly 0 (bits ++ [b]) = crcBit poly (crcBits poly 0 bits) b :=
      List.foldl_concat _ _ _ _
    refine ⟨q * X + q', ?_⟩
    rw [hlast, hreg]
    linear_combination X * hq + hq'

/-- The register holds the remainder. -/
theorem modByMonic_generator (poly : BitVec w) (bits : List Bool) :
    (ofBits bits * X ^ w) %ₘ generator poly = toPoly (crcBits poly 0 bits) := by
  obtain ⟨q, hq⟩ := exists_quotient poly bits
  have hmonic : (generator poly).Monic := monic_X_pow_add (degree_toPoly_lt poly)
  have hdegree : (generator poly).degree = w := by
    have hlt : (toPoly poly).degree < (X ^ w : (ZMod 2)[X]).degree := by
      rw [degree_X_pow]
      exact degree_toPoly_lt poly
    rw [generator, degree_add_eq_left_of_degree_lt hlt, degree_X_pow]
  refine (div_modByMonic_unique q _ hmonic ⟨?_, ?_⟩).2
  · rw [hq, add_comm, mul_comm]
  · rw [hdegree]
    exact degree_toPoly_lt _

end ControlRTT.Lib.Crc

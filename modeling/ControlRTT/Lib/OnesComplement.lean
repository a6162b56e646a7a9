import Mathlib.Data.ZMod.Basic
import Mathlib.Data.Nat.Digits.Defs

/-! # Sums with end-around carry

A sum in which the carry out of the top is added at the bottom keeps a number's residue modulo
`m`, the largest number of the width, and keeps zero apart from the other multiples of `m`. What
such a sum is at its end is `rep m n`, whatever order the carries were added in. A column of digits
is summed by its value as one number, in which two digits make up one word. -/
namespace ControlRTT.Lib.OnesComplement

/-- The number from 1 to `m` with the residue of `n`, and 0 for 0. -/
def rep (m n : Nat) : Nat := if n = 0 then 0 else (n - 1) % m + 1

variable {m : Nat}

@[simp] theorem rep_zero : rep m 0 = 0 := rfl

theorem rep_le [NeZero m] (n : Nat) : rep m n ≤ m := by
  have hm := Nat.mod_lt (n - 1) (NeZero.pos m)
  unfold rep
  split <;> omega

theorem rep_of_le {n : Nat} (h : n ≤ m) : rep m n = n := by
  unfold rep
  split
  · omega
  · rw [Nat.mod_eq_of_lt (by omega)]
    omega

theorem rep_eq_zero {n : Nat} : rep m n = 0 ↔ n = 0 := by
  unfold rep
  split <;> simp_all

@[simp] theorem cast_rep (n : Nat) : (rep m n : ZMod m) = n := by
  unfold rep
  split
  · simp_all
  · rename_i h
    have hn : n - 1 + 1 = n := by omega
    calc (((n - 1) % m + 1 : Nat) : ZMod m) = ((n - 1 + 1 : Nat) : ZMod m) := by simp
      _ = n := by rw [hn]

/-- The residue, and whether it is zero, are all there is to a sum. -/
theorem rep_congr {a b : Nat} (h : (a : ZMod m) = b) (hz : a = 0 ↔ b = 0) : rep m a = rep m b := by
  by_cases ha : a = 0
  · rw [ha, hz.mp ha]
  · have hb : b ≠ 0 := fun hb => ha (hz.mpr hb)
    have h1 : ((a - 1 : Nat) : ZMod m) = (b - 1 : Nat) := by
      rw [Nat.cast_sub (by omega), Nat.cast_sub (by omega), h]
    unfold rep
    rw [if_neg ha, if_neg hb, (ZMod.natCast_eq_natCast_iff' _ _ _).mp h1]

theorem rep_congr_mod {a b : Nat} (h : a % m = b % m) (hz : a = 0 ↔ b = 0) :
    rep m a = rep m b :=
  rep_congr ((ZMod.natCast_eq_natCast_iff' _ _ _).mpr h) hz

theorem rep_mod (n : Nat) : rep m n % m = n % m :=
  (ZMod.natCast_eq_natCast_iff' _ _ _).mp (cast_rep n)

theorem rep_eq_rep {a b : Nat} : rep m a = rep m b ↔ a % m = b % m ∧ (a = 0 ↔ b = 0) := by
  constructor
  · intro h
    constructor
    · rw [← rep_mod a, h, rep_mod]
    · rw [← @rep_eq_zero m a, h, rep_eq_zero]
  · intro ⟨h, hz⟩
    exact rep_congr_mod h hz

theorem rep_eq {a s : Nat} (hs : s ≤ m) (h : (s : ZMod m) = a) (hz : s = 0 ↔ a = 0) :
    s = rep m a := by
  rw [← rep_congr h hz, rep_of_le hs]

@[simp] theorem rep_rep [NeZero m] (n : Nat) : rep m (rep m n) = rep m n := rep_of_le (rep_le n)

theorem rep_add (a b : Nat) : rep m (rep m a + rep m b) = rep m (a + b) := by
  apply rep_congr
  · simp
  · simp [rep_eq_zero]

theorem rep_add_congr {a b c d : Nat} (h : rep m a = rep m b) (h' : rep m c = rep m d) :
    rep m (a + c) = rep m (b + d) := by
  rw [← rep_add, h, h', rep_add]

theorem rep_mul (k n : Nat) : rep m (k * rep m n) = rep m (k * n) := by
  apply rep_congr
  · simp
  · simp [rep_eq_zero]

/-- One fold leaves the sum as it is: the upper digits come back in at the bottom. -/
theorem rep_fold (n : Nat) : rep m (n / (m + 1) + n % (m + 1)) = rep m n := by
  have hn := Nat.div_add_mod n (m + 1)
  apply rep_congr
  · conv_rhs => rw [← hn]
    push_cast
    simp
  · constructor
    · intro h
      obtain ⟨h1, h2⟩ := Nat.add_eq_zero_iff.mp h
      rw [← hn, h1, h2, Nat.mul_zero]
    · intro h
      simp [h]

theorem rep_eq_top [NeZero m] {n : Nat} : rep m n = m ↔ n ≠ 0 ∧ (n : ZMod m) = 0 := by
  constructor
  · intro h
    constructor
    · intro hn
      rw [hn, rep_zero] at h
      exact NeZero.ne m h.symm
    · rw [← cast_rep n, h]
      simp
  · intro ⟨h0, hn⟩
    rw [ZMod.natCast_eq_zero_iff] at hn
    symm
    apply rep_eq le_rfl
    · rw [ZMod.natCast_self, (ZMod.natCast_eq_zero_iff n m).mpr hn]
    · exact iff_of_false (NeZero.ne m) h0

/-- A number and its complement make all ones. -/
theorem rep_add_compl [NeZero m] (n : Nat) : rep m (n + (m - rep m n)) = m := by
  have h := rep_le (m := m) n
  rw [rep_eq_top]
  constructor
  · intro h0
    obtain ⟨hn, hm⟩ := Nat.add_eq_zero_iff.mp h0
    rw [hn, rep_zero, Nat.sub_zero] at hm
    exact NeZero.ne m hm
  · rw [Nat.cast_add, Nat.cast_sub h, cast_rep, ZMod.natCast_self]
    simp

/-! ## Digits of half a word -/

/-- What a sum becomes where its first digit is the higher one of its word. -/
def shift (b : Nat) (odd : Bool) (n : Nat) : Nat := if odd then b * n else n

variable {b : Nat}

@[simp] theorem shift_false (n : Nat) : shift b false n = n := rfl

@[simp] theorem shift_true (n : Nat) : shift b true n = b * n := rfl

theorem shift_add (odd : Bool) (x y : Nat) :
    shift b odd (x + y) = shift b odd x + shift b odd y := by
  cases odd
  · rfl
  · exact Nat.mul_add ..

theorem rep_shift_rep (odd : Bool) (n : Nat) :
    rep m (shift b odd (rep m n)) = rep m (shift b odd n) := by
  cases odd
  · exact rep_congr (cast_rep n) rep_eq_zero
  · exact rep_mul b n

theorem rep_shift_congr {odd : Bool} {x y : Nat} (h : rep m x = rep m y) :
    rep m (shift b odd x) = rep m (shift b odd y) := by
  rw [← rep_shift_rep, h, rep_shift_rep]

section
variable (hb : ((b * b : Nat) : ZMod m) = 1) (hp : 0 < b)
include hb hp

theorem rep_shift_shift (s t : Bool) (n : Nat) :
    rep m (shift b s (shift b t n)) = rep m (shift b (s ^^ t) n) := by
  cases s
  · simp
  · cases t
    · rfl
    · simp only [shift_true, Bool.xor_self, shift_false, ← Nat.mul_assoc]
      apply rep_congr
      · rw [Nat.cast_mul, hb, one_mul]
      · simp [hp.ne']

theorem rep_pow_mul (k n : Nat) :
    rep m (b ^ k * n) = rep m (shift b (decide (k % 2 = 1)) n) := by
  induction k generalizing n with
  | zero => simp
  | succ k ih =>
    have hpar : decide ((k + 1) % 2 = 1) = (decide (k % 2 = 1) ^^ true) := by
      rcases Nat.mod_two_eq_zero_or_one k with h | h <;> simp [Nat.add_mod, h]
    rw [pow_succ, Nat.mul_assoc, ih, hpar, ← rep_shift_shift hb hp]
    rfl

theorem rep_ofDigits_append (xs ys : List Nat) :
    rep m (Nat.ofDigits b (xs ++ ys)) =
      rep m (Nat.ofDigits b xs + shift b (decide (xs.length % 2 = 1)) (Nat.ofDigits b ys)) := by
  rw [Nat.ofDigits_append]
  exact rep_add_congr rfl (rep_pow_mul hb hp xs.length _)

omit hp in
/-- One other digit makes another sum. -/
theorem digit_eq_of_set {l : List Nat} {i x : Nat} (hi : i < l.length)
    (h : ((Nat.ofDigits b (l.set i x) : Nat) : ZMod m) = (Nat.ofDigits b l : Nat)) :
    (x : ZMod m) = l[i] := by
  induction l generalizing i with
  | nil => exact absurd hi (Nat.not_lt_zero i)
  | cons d l ih =>
    cases i with
    | zero =>
      simp only [List.set_cons_zero, Nat.ofDigits_cons, Nat.cast_add] at h
      exact add_right_cancel h
    | succ i =>
      simp only [List.set_cons_succ, Nat.ofDigits_cons, Nat.cast_add, Nat.cast_mul] at h
      have h1 := congrArg (fun z => (b : ZMod m) * z) (add_left_cancel h)
      simp only [← mul_assoc, show (b : ZMod m) * b = 1 by rw [← Nat.cast_mul, hb], one_mul] at h1
      simpa using ih (Nat.lt_of_succ_lt_succ hi) h1

end

end ControlRTT.Lib.OnesComplement

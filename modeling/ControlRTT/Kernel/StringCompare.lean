import Mathlib.Data.List.Basic

/-! # String comparison (kservice.c)

`rt_strcmp` returns the difference of the first two characters that differ as an `int`, and
`rt_strncmp` as a `signed char`, in which it may lose its sign. A string is the list of its bytes,
without the terminator, and a pointer into it is what is left of it. -/
namespace ControlRTT.Kernel.StringCompare

/-- A string. -/
@[ext]
structure CStr where
  bytes : List UInt8
  noNul : 0 ∉ bytes

instance : DecidableEq CStr := fun _ _ => decidable_of_iff _ CStr.ext_iff.symm

/-- Behind its last byte a string has its terminator. -/
def deref (s : List UInt8) : UInt8 := s.headD 0

/-- The value of a `char`, which is a signed type or not as the compiler has it. -/
def char (signed : Bool) (b : UInt8) : Int := if signed then b.toInt8.toInt else b.toNat

/-- `rt_strncmp`, which goes on only while `__res` is 0. -/
def rtStrncmp (signed : Bool) (cs ct : List UInt8) : Nat → Int8
  | 0 => 0
  | count + 1 =>
    let res := Int8.ofInt (char signed (deref cs) - char signed (deref ct))
    if res ≠ 0 ∨ deref cs = 0 then res else rtStrncmp signed cs.tail ct.tail count

/-- `rt_strcmp` -/
def rtStrcmp (signed : Bool) : List UInt8 → List UInt8 → Int
  | [], ct => char signed 0 - char signed (deref ct)
  | c :: cs, ct =>
    if c ≠ 0 ∧ char signed c = char signed (deref ct) then rtStrcmp signed cs ct.tail
    else char signed c - char signed (deref ct)

/-! ## Where two strings differ -/

/-- The bytes at the first place where two strings differ. -/
def firstDifference : List UInt8 → List UInt8 → Option (UInt8 × UInt8)
  | [], [] => none
  | [], b :: _ => some (0, b)
  | a :: _, [] => some (a, 0)
  | a :: s, b :: t => if a = b then firstDifference s t else some (a, b)

/-- By how much they differ there. -/
def difference (signed : Bool) (s t : List UInt8) : Int :=
  ((firstDifference s t).map fun p => char signed p.1 - char signed p.2).getD 0

section
variable {signed : Bool} {a b : UInt8} {s t : List UInt8} {n : Nat}

theorem char_zero (signed : Bool) : char signed 0 = 0 := by
  cases signed <;> rfl

theorem char_injective (h : char signed a = char signed b) : a = b := by
  cases signed with
  | true => exact UInt8.toUInt8_toInt8 a ▸ UInt8.toUInt8_toInt8 b ▸
      congrArg Int8.toUInt8 (Int8.toInt_inj.mp h)
  | false => exact UInt8.toNat_inj.mp (Int.ofNat_inj.mp h)

theorem char_eq_zero (h : char signed a = 0) : a = 0 :=
  char_injective (h.trans (char_zero signed).symm)

theorem char_sub_bounds (signed : Bool) (a b : UInt8) :
    -255 ≤ char signed a - char signed b ∧ char signed a - char signed b ≤ 255 := by
  cases signed with
  | true =>
    have ha := a.toInt8.le_toInt
    have ha' := a.toInt8.toInt_lt
    have hb := b.toInt8.le_toInt
    have hb' := b.toInt8.toInt_lt
    simp only [char, if_true]
    omega
  | false =>
    have ha := a.toNat_lt
    have hb := b.toNat_lt
    simp only [char, Bool.false_eq_true, if_false]
    omega

theorem firstDifference_comm (s t : List UInt8) :
    firstDifference t s = (firstDifference s t).map Prod.swap := by
  induction s generalizing t with
  | nil => cases t <;> rfl
  | cons a s ih =>
    cases t with
    | nil => rfl
    | cons b t =>
      simp only [firstDifference]
      by_cases hab : a = b
      · rw [if_pos hab, if_pos hab.symm, ih]
      · rw [if_neg hab, if_neg (Ne.symm hab)]
        rfl

theorem difference_comm (signed : Bool) (s t : List UInt8) :
    difference signed t s = -difference signed s t := by
  unfold difference
  rw [firstDifference_comm]
  cases firstDifference s t with
  | none => rfl
  | some p => exact (Int.neg_sub _ _).symm

theorem difference_bounds (signed : Bool) (s t : List UInt8) :
    -255 ≤ difference signed s t ∧ difference signed s t ≤ 255 := by
  unfold difference
  cases firstDifference s t with
  | none => simp
  | some p => exact char_sub_bounds signed p.1 p.2

theorem difference_cons_self (signed : Bool) (a : UInt8) (s t : List UInt8) :
    difference signed (a :: s) (a :: t) = difference signed s t := by
  simp [difference, firstDifference]

theorem difference_cons_ne (hab : a ≠ b) :
    difference signed (a :: s) (b :: t) = char signed a - char signed b := by
  simp [difference, firstDifference, hab]

/-- They do not differ exactly if they are the same. -/
theorem difference_eq_zero (hs : 0 ∉ s) (ht : 0 ∉ t) : difference signed s t = 0 ↔ s = t := by
  induction s generalizing t with
  | nil =>
    cases t with
    | nil => simp [difference, firstDifference]
    | cons b t =>
      refine iff_of_false (fun h => ht ?_) (by simp)
      simp only [difference, firstDifference, Option.map_some, Option.getD_some, char_zero] at h
      rw [char_eq_zero (show char signed b = 0 by omega)]
      exact List.mem_cons_self
  | cons a s ih =>
    cases t with
    | nil =>
      refine iff_of_false (fun h => hs ?_) (by simp)
      simp only [difference, firstDifference, Option.map_some, Option.getD_some, char_zero] at h
      rw [char_eq_zero (show char signed a = 0 by omega)]
      exact List.mem_cons_self
    | cons b t =>
      by_cases hab : a = b
      · subst hab
        rw [difference_cons_self, ih (fun h => hs (List.mem_cons_of_mem a h))
          fun h => ht (List.mem_cons_of_mem a h)]
        simp
      · rw [difference_cons_ne hab]
        refine iff_of_false (fun h => hab (char_injective (Int.sub_eq_zero.mp h))) ?_
        simp [hab]

/-! ## The two functions -/

theorem rtStrcmp_eq_difference (hs : 0 ∉ s) (ht : 0 ∉ t) :
    rtStrcmp signed s t = difference signed s t := by
  induction s generalizing t with
  | nil =>
    cases t with
    | nil => simp [rtStrcmp, deref, difference, firstDifference]
    | cons b t => rfl
  | cons a s ih =>
    have hcons : a ≠ 0 := fun h => hs (h ▸ List.mem_cons_self)
    have hrest : 0 ∉ s := fun h => hs (List.mem_cons_of_mem a h)
    cases t with
    | nil =>
      have hne : char signed a ≠ char signed 0 := fun h => hcons (char_injective h)
      rw [rtStrcmp, if_neg fun h => hne h.2]
      rfl
    | cons b t =>
      by_cases hab : a = b
      · subst hab
        rw [rtStrcmp, if_pos ⟨hcons, rfl⟩, difference_cons_self]
        exact ih hrest fun h => ht (List.mem_cons_of_mem a h)
      · have hne : char signed a ≠ char signed b := fun h => hab (char_injective h)
        rw [rtStrcmp, if_neg fun h => hne h.2, difference_cons_ne hab]
        rfl

theorem ofInt_eq_zero {d : Int} (hd : -255 ≤ d ∧ d ≤ 255) : Int8.ofInt d = 0 ↔ d = 0 := by
  rw [← Int8.toInt_inj, Int8.toInt_ofInt]
  simp only [Int.bmod, Int8.size, Int8.toInt_zero]
  omega

theorem ofInt_char_sub_ne_zero (hab : a ≠ b) :
    Int8.ofInt (char signed a - char signed b) ≠ 0 := by
  intro h
  have hzero := (ofInt_eq_zero (char_sub_bounds signed a b)).mp h
  exact hab (char_injective (Int.sub_eq_zero.mp hzero))

theorem rtStrncmp_eq_difference (hs : 0 ∉ s) (n : Nat) :
    rtStrncmp signed s t n = Int8.ofInt (difference signed (s.take n) (t.take n)) := by
  induction n generalizing s t with
  | zero => simp [rtStrncmp, difference, firstDifference]
  | succ n ih =>
    cases s with
    | nil =>
      rw [rtStrncmp, if_pos (.inr rfl)]
      cases t with
      | nil => simp [deref, difference, firstDifference]
      | cons b t => rfl
    | cons a s =>
      have hcons : a ≠ 0 := fun h => hs (h ▸ List.mem_cons_self)
      cases t with
      | nil =>
        rw [rtStrncmp, if_pos (.inl (ofInt_char_sub_ne_zero hcons))]
        rfl
      | cons b t =>
        rw [List.take_succ_cons, List.take_succ_cons]
        by_cases hab : a = b
        · subst hab
          rw [difference_cons_self, ← ih fun h => hs (List.mem_cons_of_mem a h), rtStrncmp]
          exact if_neg (by simp [deref, hcons])
        · rw [difference_cons_ne hab, rtStrncmp, if_pos (.inl (ofInt_char_sub_ne_zero hab))]
          rfl

theorem rtStrcmp_eq_zero (hs : 0 ∉ s) (ht : 0 ∉ t) : rtStrcmp signed s t = 0 ↔ s = t := by
  rw [rtStrcmp_eq_difference hs ht, difference_eq_zero hs ht]

/-- Two strings are the same to `rt_strncmp` exactly if their first bytes are. -/
theorem rtStrncmp_eq_zero (hs : 0 ∉ s) (ht : 0 ∉ t) (n : Nat) :
    rtStrncmp signed s t n = 0 ↔ s.take n = t.take n := by
  rw [rtStrncmp_eq_difference hs, ofInt_eq_zero (difference_bounds signed _ _)]
  exact difference_eq_zero (fun h => hs (List.mem_of_mem_take h))
    fun h => ht (List.mem_of_mem_take h)

/-! ## When they agree -/

/-- The two functions have one sign, and the sign of each turns with its arguments. -/
structure Agree (signed : Bool) (s t : List UInt8) (n : Nat) : Prop where
  same : (rtStrncmp signed s t n).toInt.sign = (rtStrcmp signed s t).sign
  strncmp : (rtStrncmp signed t s n).toInt.sign = -(rtStrncmp signed s t n).toInt.sign
  strcmp : (rtStrcmp signed t s).sign = -(rtStrcmp signed s t).sign

theorem sign_eq_sign {x y : Int} (hpos : 0 < x ↔ 0 < y) (hneg : x < 0 ↔ y < 0) :
    x.sign = y.sign := by
  rcases Int.lt_trichotomy x 0 with hx | rfl | hx
  · rw [Int.sign_eq_neg_one_of_neg hx, Int.sign_eq_neg_one_of_neg (hneg.mp hx)]
  · rw [show y = 0 by omega]
  · rw [Int.sign_eq_one_of_pos hx, Int.sign_eq_one_of_pos (hpos.mp hx)]

/-- A difference keeps its sign as a `signed char`. -/
theorem sign_ofInt {d : Int} (hlo : -128 ≤ d) (hhi : d < 128) :
    (Int8.ofInt d).toInt.sign = d.sign := by
  rw [Int8.toInt_ofInt_of_le hlo hhi]

/-- A difference that has no room in a `signed char` gets the other sign. -/
theorem sign_ofInt_far {d : Int} (hd : -255 ≤ d ∧ d ≤ 255) (hfar : d < -128 ∨ 128 ≤ d) :
    (Int8.ofInt d).toInt.sign = (-d).sign := by
  refine sign_eq_sign ?_ ?_
  all_goals
    simp only [Int8.toInt_ofInt, Int.bmod, Int8.size]
    omega

/-- They agree exactly if the bytes at the first place where the strings differ do so by less than
128, as characters. -/
theorem agree_iff (signed : Bool) (cs ct : CStr) {n : Nat}
    (hn : cs.bytes.length < n ∧ ct.bytes.length < n) :
    Agree signed cs.bytes ct.bytes n ↔ ∀ p ∈ firstDifference cs.bytes ct.bytes,
      -128 < char signed p.1 - char signed p.2 ∧ char signed p.1 - char signed p.2 < 128 := by
  obtain ⟨s, hs⟩ := cs
  obtain ⟨t, ht⟩ := ct
  dsimp only at hn ⊢
  have hd := difference_bounds signed s t
  have hst : rtStrncmp signed s t n = Int8.ofInt (difference signed s t) := by
    rw [rtStrncmp_eq_difference hs, List.take_of_length_le (Nat.le_of_lt hn.1),
      List.take_of_length_le (Nat.le_of_lt hn.2)]
  have hts : rtStrncmp signed t s n = Int8.ofInt (-difference signed s t) := by
    rw [rtStrncmp_eq_difference ht, List.take_of_length_le (Nat.le_of_lt hn.1),
      List.take_of_length_le (Nat.le_of_lt hn.2), difference_comm]
  have hcmp : rtStrcmp signed s t = difference signed s t := rtStrcmp_eq_difference hs ht
  have hcmp' : rtStrcmp signed t s = -difference signed s t := by
    rw [rtStrcmp_eq_difference ht hs, difference_comm]
  have hclose : (∀ p ∈ firstDifference s t,
      -128 < char signed p.1 - char signed p.2 ∧ char signed p.1 - char signed p.2 < 128) ↔
      -128 < difference signed s t ∧ difference signed s t < 128 := by
    unfold difference
    cases firstDifference s t with
    | none => simp
    | some p => simp
  rw [hclose]
  generalize difference signed s t = d at *
  constructor
  · rintro ⟨hsame, hanti, -⟩
    rw [hst, hcmp] at hsame
    rw [hst, hts] at hanti
    by_contra hfar
    by_cases hlow : d = -128
    · subst hlow
      exact absurd hanti (by decide)
    · rw [sign_ofInt_far hd (by omega), Int.sign_neg] at hsame
      have hzero := Int.sign_eq_zero_iff_zero.mp (show d.sign = 0 by omega)
      omega
  · rintro ⟨hlo, hhi⟩
    refine ⟨?_, ?_, ?_⟩
    · rw [hst, hcmp, sign_ofInt (by omega) hhi]
    · rw [hst, hts, sign_ofInt (by omega) (by omega), sign_ofInt (by omega) hhi, Int.sign_neg]
    · rw [hcmp, hcmp', Int.sign_neg]

/-- `"ab"` and `"ac"`. -/
theorem agree_letters : Agree false [0x61, 0x62] [0x61, 0x63] 3 := by
  refine (agree_iff false ⟨[0x61, 0x62], by decide⟩ ⟨[0x61, 0x63], by decide⟩
    ⟨by decide, by decide⟩).mpr ?_
  intro p hp
  obtain rfl : ((0x62 : UInt8), (0x63 : UInt8)) = p := by
    simpa [firstDifference] using hp
  decide

/-- The byte 0xC8 is greater than the end of a string to `rt_strcmp`, and smaller to
`rt_strncmp`. -/
theorem not_agree_high : ¬ ∀ (signed : Bool) (cs ct : CStr) (n : Nat),
    cs.bytes.length < n ∧ ct.bytes.length < n → Agree signed cs.bytes ct.bytes n := by
  intro h
  have hsame := (h false ⟨[0xC8], by decide⟩ ⟨[], by decide⟩ 2 ⟨by decide, by decide⟩).same
  exact absurd hsame (by decide)

end

end ControlRTT.Kernel.StringCompare

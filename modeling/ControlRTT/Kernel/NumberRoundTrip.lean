import ControlRTT.Kernel.PrintNumber
import Mathlib.Data.Nat.Digits.Lemmas

/-! # Numbers that are printed and read again

What `print_number` prints is read as the number in the base of the conversion, has the width and
the precision, and is padded on the side of the flags. For `%o` it is read so only below 8, as
`divide` knows no base 8 (`printNumber_formats_iff`). -/
namespace ControlRTT.Kernel.Printf

/-- The conversions of numbers in `rt_vsnprintf`; `%i` is `%d`. -/
inductive Conversion
  | o
  | x
  | X
  | d
  | u
  deriving DecidableEq, Repr

def Conversion.base : Conversion → Nat
  | o => 8
  | x | X => 16
  | d | u => 10

/-- `flags` are those of the format. -/
def Conversion.type (conv : Conversion) (flags : Flags) : Flags :=
  { flags with sign := decide (conv = .d), large := decide (conv = .X) }

/-- The number that a conversion is given. -/
def Conversion.value (conv : Conversion) (num : BitVec 32) : Int :=
  if conv = .d then num.toInt else num.toNat

def Conversion.number (conv : Conversion) (flags : Flags) (num : BitVec 32) (s precision : Int) :
    Number :=
  { num, base := conv.base, s, precision, type := conv.type flags }

/-! ## Reading -/

def digitValue (c : UInt8) : Option Nat :=
  if 0x30 ≤ c ∧ c ≤ 0x39 then some (c.toNat - 0x30)
  else if 0x61 ≤ c ∧ c ≤ 0x66 then some (c.toNat - 0x61 + 10)
  else if 0x41 ≤ c ∧ c ≤ 0x46 then some (c.toNat - 0x41 + 10)
  else none

def AllSpaces (bytes : List UInt8) : Prop := ∀ c ∈ bytes, c = space

instance (bytes : List UInt8) : Decidable (AllSpaces bytes) :=
  inferInstanceAs (Decidable (∀ c ∈ bytes, c = space))

/-- Digits of the base up to the end or to spaces, behind a number. -/
def readDigits (base : Nat) (acc : Nat) : List UInt8 → Option Nat
  | [] => some acc
  | c :: rest =>
    if c = space then if AllSpaces rest then some acc else none
    else
      match digitValue c with
      | some d => if d < base then readDigits base (acc * base + d) rest else none
      | none => none

/-- A number has a digit. -/
def readSome (base : Nat) : List UInt8 → Option Nat
  | [] => none
  | c :: rest => if c = space then none else readDigits base 0 (c :: rest)

/-- In base 16 there may be `0x` or `0X` before it. -/
def readNumber (base : Nat) (bytes : List UInt8) : Option Nat :=
  if base = 16 ∧ bytes.head? = some zero ∧ bytes.tail.head? ∈ [some 0x78, some 0x58] then
    readSome base bytes.tail.tail
  else readSome base bytes

/-- A number behind spaces and a sign. -/
def readBack (base : Nat) (bytes : List UInt8) : Option Int :=
  match bytes.dropWhile (· = space) with
  | [] => none
  | c :: rest =>
    if c = minusSign then (readNumber base rest).map fun n : Nat => -(n : Int)
    else if c = plusSign then (readNumber base rest).map fun n : Nat => (n : Int)
    else (readNumber base (c :: rest)).map fun n : Nat => (n : Int)

/-! ## What is asked of the output -/

/-- The layout of a number: spaces, the sign and the prefix, zeros, the digits, and spaces. There
are more zeros than the precision asks for only where they fill the width. -/
structure Formatted (special : Bool) (conv : Conversion) (flags : Flags) (num : BitVec 32)
    (s precision : Int) (bytes : List UInt8) : Prop where
  value : readBack conv.base bytes = some (conv.value num)
  width : s ≤ bytes.length
  padded : ∃ before zeros digits after,
    bytes = List.replicate before space ++ ((conv.number flags num s precision).signBytes ++
      ((conv.number flags num s precision).prefixBytes special ++
        (List.replicate zeros zero ++ (digits ++ List.replicate after space)))) ∧
    precision ≤ zeros + digits.length ∧ space ∉ digits ∧
    if flags.left then before = 0 ∧ zeros = (precision - digits.length).toNat
    else after = 0 ∧
      if flags.zeropad then before = 0 else zeros = (precision - digits.length).toNat

/-! ## Digits -/

section
variable {ds : List UInt8} {base acc d : Nat} {L : List Nat}

/-- What a digit is read as, whichever letters are used. -/
theorem digitChar_spec (hds : ds = smallDigits ∨ ds = largeDigits) (hd : d < 16) :
    digitValue (ds.getD d 0) = some d ∧ ds.getD d 0 ≠ space ∧ ds.getD d 0 ≠ minusSign ∧
      ds.getD d 0 ≠ plusSign ∧ some (ds.getD d 0) ∉ [some (0x78 : UInt8), some 0x58] := by
  have hsmall : ∀ d < 16, digitValue (smallDigits.getD d 0) = some d ∧
      smallDigits.getD d 0 ≠ space ∧ smallDigits.getD d 0 ≠ minusSign ∧
      smallDigits.getD d 0 ≠ plusSign ∧
      some (smallDigits.getD d 0) ∉ [some (0x78 : UInt8), some 0x58] := by decide
  have hlarge : ∀ d < 16, digitValue (largeDigits.getD d 0) = some d ∧
      largeDigits.getD d 0 ≠ space ∧ largeDigits.getD d 0 ≠ minusSign ∧
      largeDigits.getD d 0 ≠ plusSign ∧
      some (largeDigits.getD d 0) ∉ [some (0x78 : UInt8), some 0x58] := by decide
  rcases hds with rfl | rfl
  · exact hsmall d hd
  · exact hlarge d hd

theorem readDigits_spaces (k : Nat) :
    readDigits base acc (List.replicate k space) = some acc := by
  cases k with
  | zero => rfl
  | succ k =>
    rw [List.replicate_succ, readDigits, if_pos rfl, if_pos]
    exact fun c hc => List.eq_of_mem_replicate hc

/-- The value of digits, the first of which has the greatest weight, behind those that have been
read. -/
def digitsValue (base acc : Nat) (L : List Nat) : Nat := L.foldl (fun acc d => acc * base + d) acc

theorem readDigits_chars (hds : ds = smallDigits ∨ ds = largeDigits) (hL : ∀ d ∈ L, d < 16)
    (k : Nat) : readDigits base acc (L.map (ds.getD · 0) ++ List.replicate k space) =
      if ∀ d ∈ L, d < base then some (digitsValue base acc L) else none := by
  induction L generalizing acc with
  | nil =>
    rw [if_pos (fun _ h => by cases h)]
    exact readDigits_spaces k
  | cons d L ih =>
    obtain ⟨hvalue, hspace, -⟩ := digitChar_spec hds (hL d List.mem_cons_self)
    have hrest : readDigits base (acc * base + d) (L.map (ds.getD · 0) ++
        List.replicate k space) =
        if ∀ d ∈ L, d < base then some (digitsValue base (acc * base + d) L) else none :=
      ih fun d hd => hL d (List.mem_cons_of_mem _ hd)
    rw [List.map_cons, List.cons_append, readDigits, if_neg hspace, hvalue]
    dsimp only
    by_cases hd : d < base
    · rw [if_pos hd, hrest]
      simp [hd, digitsValue]
    · rw [if_neg hd, if_neg fun h => hd (h d List.mem_cons_self)]

theorem digitsValue_zeros (base k : Nat) (L : List Nat) :
    digitsValue base 0 (List.replicate k 0 ++ L) = digitsValue base 0 L := by
  induction k with
  | zero => rfl
  | succ k ih =>
    rw [List.replicate_succ, List.cons_append, digitsValue, List.foldl_cons, Nat.zero_mul]
    exact ih

theorem digitsValue_reverse (base : Nat) (L : List Nat) :
    digitsValue base 0 L.reverse = Nat.ofDigits base L := by
  rw [digitsValue, List.foldl_reverse, Nat.ofDigits_eq_foldr]
  congr 1
  funext d acc
  simp only [Nat.cast_id]
  rw [Nat.mul_comm, Nat.add_comm]

/-- Digits of base 16 are read as another number in base 8, or not read. -/
theorem ofDigits_eight {n : Nat} (h : 8 ≤ n) (hL : ∀ d ∈ Nat.digits 16 n, d < 8) :
    Nat.ofDigits 8 (Nat.digits 16 n) < n := by
  have hdigits := Nat.digits_def' (b := 16) (by decide) (show 0 < n by omega)
  rw [hdigits] at hL ⊢
  have hlow := hL (n % 16) List.mem_cons_self
  have hrest : Nat.ofDigits 8 (Nat.digits 16 (n / 16)) ≤ n / 16 := by
    refine (Nat.ofDigits_monotone _ (by decide)).trans_eq (Nat.ofDigits_digits 16 _)
  rw [Nat.ofDigits_cons]
  omega

/-! ## The digits of a number -/

/-- The base that `divide` works with. -/
def divisor (base : Nat) : Nat := if base = 10 then 10 else 16

theorem divide_toNat (num : BitVec 32) (base : Nat) :
    (divide num base).1.toNat = num.toNat % divisor base ∧
      (divide num base).2.toNat = num.toNat / divisor base := by
  unfold divide divisor
  split
  · exact ⟨rfl, rfl⟩
  · exact ⟨rfl, rfl⟩

theorem tmpDigits_eq (ds : List UInt8) (base : Nat) (num : BitVec 32) :
    tmpDigits ds base num = (Nat.digits (divisor base) num.toNat).map (ds.getD · 0) := by
  fun_induction tmpDigits ds base num with
  | case1 => simp
  | case2 num hne ih =>
    obtain ⟨hmod, hdiv⟩ := divide_toNat num base
    have hbase : 1 < divisor base := by
      unfold divisor
      split <;> decide
    have hdigits := Nat.digits_def' hbase (show 0 < num.toNat by bv_omega)
    rw [ih, hmod, hdiv, hdigits, List.map_cons]

/-- The digits that are printed, the one of the least weight first. -/
def digitsOf (base n : Nat) : List Nat := if n = 0 then [0] else Nat.digits (divisor base) n

theorem digitsOf_lt (base n : Nat) : ∀ d ∈ digitsOf base n, d < divisor base := by
  unfold digitsOf
  have hbase : 1 < divisor base := by
    unfold divisor
    split <;> decide
  split
  · intro d hd
    rw [List.mem_singleton] at hd
    omega
  · exact fun d hd => Nat.digits_lt_base hbase hd

theorem ofDigits_digitsOf (base n : Nat) : Nat.ofDigits (divisor base) (digitsOf base n) = n := by
  unfold digitsOf
  split
  · rename_i hzero
    rw [hzero]
    rfl
  · exact Nat.ofDigits_digits _ n

theorem digits_cases (n : Number) : n.digits = smallDigits ∨ n.digits = largeDigits := by
  unfold Number.digits
  split
  · exact .inr rfl
  · exact .inl rfl

theorem tmp_eq (n : Number) :
    n.tmp = (digitsOf n.base (getSign n.type n.num).2.toNat).map (n.digits.getD · 0) := by
  unfold Number.tmp digitsOf
  by_cases hzero : (getSign n.type n.num).2 = 0
  · rw [hzero]
    rcases digits_cases n with hds | hds
    · rw [hds]
      rfl
    · rw [hds]
      rfl
  · have hne : (getSign n.type n.num).2.toNat ≠ 0 := fun h => hzero (BitVec.eq_of_toNat_eq h)
    rw [if_neg hzero, if_neg hne, tmpDigits_eq]

/-- `tmp` has room for every number. -/
theorem length_tmp_le (n : Number) : n.tmp.length ≤ 16 := by
  have hlt := (getSign n.type n.num).2.isLt
  rw [tmp_eq, List.length_map]
  unfold digitsOf
  split
  · decide
  · unfold divisor
    split
    · exact (Nat.digits_length_le_iff (by decide) _).mpr (by omega)
    · exact (Nat.digits_length_le_iff (by decide) _).mpr (by omega)

/-! ## What is read -/

theorem readSome_chars (base : Nat) (hds : ds = smallDigits ∨ ds = largeDigits)
    (hL : ∀ d ∈ L, d < 16)
    (hne : L ≠ []) (k : Nat) : readSome base (L.map (ds.getD · 0) ++ List.replicate k space) =
      if ∀ d ∈ L, d < base then some (digitsValue base 0 L) else none := by
  rw [← readDigits_chars hds hL k]
  cases L with
  | nil => exact absurd rfl hne
  | cons d L => exact if_neg (digitChar_spec hds (hL d List.mem_cons_self)).2.1

theorem readNumber_chars (base : Nat) (hds : ds = smallDigits ∨ ds = largeDigits)
    (hL : ∀ d ∈ L, d < 16)
    (hne : L ≠ []) (k : Nat) : readNumber base (L.map (ds.getD · 0) ++ List.replicate k space) =
      if ∀ d ∈ L, d < base then some (digitsValue base 0 L) else none := by
  rw [← readSome_chars base hds hL hne k, readNumber, if_neg]
  rintro ⟨-, -, hx⟩
  cases L with
  | nil => exact hne rfl
  | cons d L =>
    cases L with
    | nil =>
      cases k with
      | zero => simp at hx
      | succ k => exact absurd hx (by simp [List.replicate_succ, space])
    | cons d' L =>
      exact (digitChar_spec hds (hL d' (List.mem_cons_of_mem _ List.mem_cons_self))).2.2.2.2 hx

/-- A prefix is passed over. -/
theorem readNumber_prefix {x : UInt8} (hx : x = 0x78 ∨ x = 0x58) (bytes : List UInt8) :
    readNumber 16 (zero :: x :: bytes) = readSome 16 bytes := by
  rw [readNumber, if_pos]
  · rfl
  · refine ⟨rfl, rfl, ?_⟩
    rcases hx with rfl | rfl
    · exact List.mem_cons_self
    · exact List.mem_cons_of_mem _ List.mem_cons_self

/-- The sign that `getSign` has found. -/
theorem getSign_cases (type : Flags) (num : BitVec 32) :
    (getSign type num).1 ∈ [none, some minusSign, some plusSign, some space] := by
  unfold getSign
  repeat' split
  all_goals simp

theorem readBack_sign {sign : Option UInt8}
    (hsign : sign ∈ [none, some minusSign, some plusSign, some space]) (k : Nat) {c : UInt8}
    (hc : c ≠ space ∧ c ≠ minusSign ∧ c ≠ plusSign) (rest : List UInt8) :
    readBack base (List.replicate k space ++ (sign.toList ++ c :: rest)) =
      (readNumber base (c :: rest)).map fun n : Nat =>
        if sign = some minusSign then -(n : Int) else n := by
  have hdrop : ∀ bytes : List UInt8, (List.replicate k space ++ bytes).dropWhile (· = space) =
      bytes.dropWhile (· = space) := fun bytes =>
    List.dropWhile_append_of_pos fun c hc => decide_eq_true (List.eq_of_mem_replicate hc)
  unfold readBack
  rw [hdrop]
  simp only [List.mem_cons, List.not_mem_nil, or_false] at hsign
  rcases hsign with rfl | rfl | rfl | rfl
  · simp [hc]
  · simp [minusSign, space]
  · simp [plusSign, minusSign, space]
  · simp [hc, show space ≠ minusSign by decide]

/-! ## Whole numbers -/

variable {special stored : Bool} {n : Number}

/-- The `0` of an octal prefix is read as a digit. -/
def leadingDigits (special stored : Bool) (n : Number) : List Nat :=
  List.replicate ((if n.base = 8 then (n.prefixBytes special).length else 0) +
    n.zeros special stored + (n.precision - n.tmp.length).toNat) 0

/-- All digits of the output, those of the greatest weight first. -/
def allDigits (special stored : Bool) (n : Number) : List Nat :=
  leadingDigits special stored n ++ (digitsOf n.base (getSign n.type n.num).2.toNat).reverse

theorem allDigits_lt (special stored : Bool) (n : Number) :
    ∀ d ∈ allDigits special stored n, d < 16 := by
  intro d hd
  rcases List.mem_append.mp hd with hd | hd
  · rw [List.eq_of_mem_replicate hd]
    decide
  · have hlt := digitsOf_lt _ _ d (List.mem_reverse.mp hd)
    unfold divisor at hlt
    split at hlt <;> omega

theorem allDigits_ne (special stored : Bool) (n : Number) : allDigits special stored n ≠ [] := by
  intro h
  have hdigits := (List.append_eq_nil_iff.mp h).2
  rw [List.reverse_eq_nil_iff] at hdigits
  unfold digitsOf at hdigits
  split at hdigits
  · cases hdigits
  · rename_i hne
    exact hne (Nat.digits_eq_nil_iff_eq_zero.mp hdigits)

/-- The prefix of base 16. -/
def hexPrefix (special : Bool) (n : Number) : List UInt8 :=
  if n.base = 16 then n.prefixBytes special else []

theorem bytes_eq : n.bytes special stored = List.replicate (n.before special) space ++
    (n.signBytes ++ (hexPrefix special n ++
      ((allDigits special stored n).map (n.digits.getD · 0) ++
        List.replicate (n.after special stored) space))) := by
  have hzero : n.digits.getD 0 0 = zero := by
    rcases digits_cases n with hds | hds
    · rw [hds]
      rfl
    · rw [hds]
      rfl
  have hsplit : n.prefixBytes special = hexPrefix special n ++
      List.replicate (if n.base = 8 then (n.prefixBytes special).length else 0) zero := by
    unfold hexPrefix Number.prefixBytes
    by_cases h16 : n.base = 16
    · simp [h16]
    · by_cases h8 : n.base = 8
      · rw [if_neg h16, if_pos h8, h8]
        split <;> rfl
      · simp [h16, h8]
  unfold Number.bytes allDigits leadingDigits
  rw [List.map_append, List.map_replicate, hzero, List.map_reverse, ← tmp_eq, List.replicate_add,
    List.replicate_add]
  conv_lhs => rw [hsplit]
  simp only [List.append_assoc]

/-- The digits behind the sign, as a number of some base. -/
def magnitude (base : Nat) (n : Number) : Nat :=
  Nat.ofDigits base (digitsOf n.base (getSign n.type n.num).2.toNat)

theorem digitsValue_allDigits (base : Nat) :
    digitsValue base 0 (allDigits special stored n) = magnitude base n := by
  rw [allDigits, leadingDigits, digitsValue_zeros, digitsValue_reverse]
  rfl

/-- What is behind the sign is read as a number, and does not begin as a sign does. -/
theorem readNumber_behind (special stored : Bool) (n : Number) (k : Nat) : ∃ c rest,
    hexPrefix special n ++ ((allDigits special stored n).map (n.digits.getD · 0) ++
      List.replicate k space) = c :: rest ∧
    (c ≠ space ∧ c ≠ minusSign ∧ c ≠ plusSign) ∧
    readNumber n.base (c :: rest) = if ∀ d ∈ allDigits special stored n, d < n.base then
      some (magnitude n.base n) else none := by
  have hlt := allDigits_lt special stored n
  have hne := allDigits_ne special stored n
  have hchars := readNumber_chars n.base (digits_cases n) hlt hne k
  have hsome := readSome_chars n.base (digits_cases n) hlt hne k
  rw [digitsValue_allDigits] at hchars hsome
  by_cases hshown : n.base = 16 ∧ special ∧ n.type.special
  · obtain ⟨hbase, hspecial⟩ := hshown
    have hhex : hexPrefix special n = [zero, if n.type.large then 0x58 else 0x78] := by
      rw [hexPrefix, Number.prefixBytes, if_pos hbase, if_pos hspecial, if_pos hbase]
    rw [hhex]
    refine ⟨zero, _, rfl, by decide, ?_⟩
    rw [← hsome, hbase]
    refine readNumber_prefix ?_ _
    split
    · exact .inr rfl
    · exact .inl rfl
  · have hhex : hexPrefix special n = [] := by
      rw [hexPrefix, Number.prefixBytes]
      by_cases hbase : n.base = 16
      · rw [if_pos hbase, if_neg fun h => hshown ⟨hbase, h⟩]
      · exact if_neg hbase
    rw [hhex, List.nil_append]
    cases hL : allDigits special stored n with
    | nil => exact absurd hL hne
    | cons d L =>
      have hd : d < 16 := hlt d (hL ▸ List.mem_cons_self)
      obtain ⟨-, hspace, hminus, hplus, -⟩ := digitChar_spec (digits_cases n) hd
      rw [hL] at hchars
      exact ⟨_, _, rfl, ⟨hspace, hminus, hplus⟩, hchars⟩

theorem readBack_some (h : ∀ d ∈ allDigits special stored n, d < n.base) :
    readBack n.base (n.bytes special stored) =
      some (if (getSign n.type n.num).1 = some minusSign then -(magnitude n.base n : Int)
        else magnitude n.base n) := by
  obtain ⟨c, rest, hbody, hc, hnumber⟩ :=
    readNumber_behind special stored n (n.after special stored)
  rw [bytes_eq, hbody, Number.signBytes, readBack_sign (getSign_cases _ _) _ hc, hnumber, if_pos h]
  rfl

theorem readBack_none (h : ¬ ∀ d ∈ allDigits special stored n, d < n.base) :
    readBack n.base (n.bytes special stored) = none := by
  obtain ⟨c, rest, hbody, hc, hnumber⟩ :=
    readNumber_behind special stored n (n.after special stored)
  rw [bytes_eq, hbody, Number.signBytes, readBack_sign (getSign_cases _ _) _ hc, hnumber, if_neg h]
  rfl

end

/-! ## Conversions -/

section
variable {special stored : Bool} {conv : Conversion} {flags : Flags} {num : BitVec 32}
  {s precision : Int}

theorem toInt_of_slt (h : num.slt 0 = true) : num.toInt = -((-num).toNat : Int) := by
  have hlt : num.toInt < 0 := by simpa [BitVec.slt] using h
  have hint := BitVec.toInt_eq_toNat_cond num
  have hneg := BitVec.toNat_neg num
  split at hint <;> omega

theorem toInt_of_not_slt (h : num.slt 0 ≠ true) : num.toInt = num.toNat := by
  have hnonneg : ¬ num.toInt < 0 := by simpa [BitVec.slt] using h
  have hint := BitVec.toInt_eq_toNat_cond num
  split at hint <;> omega

/-- The sign and the digits make up the number. -/
theorem getSign_value (conv : Conversion) (flags : Flags) (num : BitVec 32) :
    (if (getSign (conv.type flags) num).1 = some minusSign then
      -((getSign (conv.type flags) num).2.toNat : Int)
    else (getSign (conv.type flags) num).2.toNat) = conv.value num := by
  unfold getSign Conversion.value Conversion.type
  by_cases hd : conv = .d
  · simp only [hd, decide_true, ↓reduceIte]
    by_cases hneg : num.slt 0 = true
    · rw [if_pos hneg, toInt_of_slt hneg]
      exact if_pos rfl
    · rw [if_neg hneg, toInt_of_not_slt hneg]
      split
      · rfl
      · split
        · rfl
        · rfl
  · simp [hd]

/-- A base that `divide` has. -/
theorem reads_of_divisor (hbase : divisor conv.base = conv.base) :
    readBack conv.base ((conv.number flags num s precision).bytes special stored) =
      some (conv.value num) := by
  have hpos : 0 < conv.base := by cases conv <;> decide
  have hall : ∀ d ∈ allDigits special stored (conv.number flags num s precision),
      d < conv.base := by
    intro d hd
    rcases List.mem_append.mp hd with hd | hd
    · rw [List.eq_of_mem_replicate hd]
      exact hpos
    · exact (digitsOf_lt _ _ d (List.mem_reverse.mp hd)).trans_eq hbase
  have hmagnitude : magnitude conv.base (conv.number flags num s precision) =
      (getSign (conv.type flags) num).2.toNat := by
    have hdigits := ofDigits_digitsOf conv.base (getSign (conv.type flags) num).2.toNat
    rwa [hbase] at hdigits
  refine (readBack_some hall).trans ?_
  rw [← getSign_value conv flags num, ← hmagnitude]
  rfl

theorem octal_reads_iff :
    readBack 8 ((Conversion.o.number flags num s precision).bytes special stored) =
      some (num.toNat : Int) ↔ num.toNat < 8 := by
  have hsign : getSign (Conversion.o.type flags) num = (none, num) := by
    simp [getSign, Conversion.type]
  have hall : (∀ d ∈ allDigits special stored (Conversion.o.number flags num s precision), d < 8) ↔
      ∀ d ∈ digitsOf 8 num.toNat, d < 8 := by
    unfold allDigits leadingDigits
    simp only [Conversion.number, hsign, List.mem_append, List.mem_reverse]
    constructor
    · exact fun h d hd => h d (.inr hd)
    · rintro h d (hd | hd)
      · rw [List.eq_of_mem_replicate hd]
        decide
      · exact h d hd
  have hsome (hd : ∀ d ∈ digitsOf 8 num.toNat, d < 8) :
      readBack 8 ((Conversion.o.number flags num s precision).bytes special stored) =
        some (Nat.ofDigits 8 (digitsOf 8 num.toNat) : Nat) := by
    refine (readBack_some (hall.mpr hd)).trans ?_
    simp only [magnitude, Conversion.number, hsign, reduceCtorEq, ↓reduceIte]
    rfl
  by_cases hlt : num.toNat < 8
  · have hdigits : digitsOf 8 num.toNat = [num.toNat] := by
      unfold digitsOf
      split
      · rename_i hzero
        rw [hzero]
      · rename_i hne
        exact Nat.digits_of_lt 16 _ hne (by omega)
    rw [hdigits] at hsome
    rw [hsome (by simpa using hlt), Nat.ofDigits_singleton]
    exact iff_of_true rfl hlt
  · have hne : num.toNat ≠ 0 := by omega
    refine iff_of_false (fun hsame => ?_) hlt
    by_cases hd : ∀ d ∈ digitsOf 8 num.toNat, d < 8
    · rw [hsome hd, digitsOf, if_neg hne] at hsame
      rw [digitsOf, if_neg hne] at hd
      have hless := ofDigits_eight (Nat.le_of_not_lt hlt) hd
      have hcast : Nat.ofDigits 8 (Nat.digits 16 num.toNat) = num.toNat :=
        Int.ofNat.inj (Option.some.inj hsame)
      omega
    · have hnone := readBack_none (mt hall.mp hd)
      cases hnone.symm.trans hsame

/-- The digits are read as what they were taken from, unless the base is 8 and they are not of
it. -/
theorem reads_iff : readBack conv.base ((conv.number flags num s precision).bytes special stored) =
    some (conv.value num) ↔ (conv = .o → num.toNat < 8) := by
  by_cases ho : conv = .o
  · subst ho
    rw [imp_iff_right rfl]
    exact octal_reads_iff
  · refine iff_of_true (reads_of_divisor ?_) fun h => absurd h ho
    cases conv with
    | o => exact absurd rfl ho
    | x | X | d | u => rfl

/-! ## The layout -/

theorem space_notMem_tmp (n : Number) : space ∉ n.tmp := by
  rw [tmp_eq]
  intro h
  obtain ⟨d, hd, hspace⟩ := List.mem_map.mp h
  have hlt := digitsOf_lt _ _ d hd
  have hd16 : d < 16 := by
    unfold divisor at hlt
    split at hlt <;> omega
  exact (digitChar_spec (digits_cases n) hd16).2.1 hspace

theorem length_bytes (special stored : Bool) (n : Number) : (n.bytes special stored).length =
    n.before special + n.signBytes.length + (n.prefixBytes special).length +
      n.zeros special stored + (n.precision - n.tmp.length).toNat + n.tmp.length +
        n.after special stored := by
  simp only [Number.bytes, List.length_append, List.length_replicate, List.length_reverse]
  omega

theorem width_le_length (special stored : Bool) (n : Number) :
    n.s ≤ (n.bytes special stored).length := by
  have hsize : n.size special = n.s - (n.prefixBytes special).length -
    max (n.tmp.length : Int) n.precision := rfl
  rw [length_bytes]
  unfold Number.before Number.zeros Number.after Number.behind
  cases n.type.left <;> cases n.type.zeropad <;> cases stored <;>
    simp only [Bool.false_eq_true, not_false_eq_true, not_true_eq_false, or_self, or_true, true_or,
      and_true, and_false, and_self, ↓reduceIte] <;> omega

theorem formatted_bytes (stored : Bool)
    (hvalue : readBack conv.base ((conv.number flags num s precision).bytes special stored) =
      some (conv.value num)) : Formatted special conv flags num s precision
        ((conv.number flags num s precision).bytes special stored) where
  value := hvalue
  width := width_le_length special stored (conv.number flags num s precision)
  padded := by
    generalize hn : conv.number flags num s precision = n
    have hleft : n.type.left = flags.left := by rw [← hn]; rfl
    have hzeropad : n.type.zeropad = flags.zeropad := by rw [← hn]; rfl
    have hprecision : n.precision = precision := by rw [← hn]; rfl
    refine ⟨n.before special, n.zeros special stored + (n.precision - n.tmp.length).toNat,
      n.tmp.reverse, n.after special stored, ?_, ?_, ?_, ?_⟩
    · rw [Number.bytes, List.replicate_add]
      simp only [List.append_assoc]
    · rw [List.length_reverse, hprecision]
      omega
    · rw [List.mem_reverse]
      exact space_notMem_tmp n
    · unfold Number.before Number.zeros Number.after
      rw [hleft, hzeropad, hprecision, List.length_reverse]
      cases flags.left with
      | true => simp
      | false =>
        cases flags.zeropad with
        | true => simp
        | false => simp

end

/-- Of every number, width, precision and set of flags, the output is what it should be exactly if
the conversion is not octal or the number is below 8. -/
theorem printNumber_formats_iff (special : Bool) (conv : Conversion) (flags : Flags)
    (num : BitVec 32) (s precision : Int) :
    (∀ last o, ∃ bytes, (printNumber special last o num conv.base s precision
      (conv.type flags)).printed = o.printed ++ bytes ∧
        Formatted special conv flags num s precision bytes) ↔ (conv = .o → num.toNat < 8) := by
  have hprinted : ∀ last o, ∃ stored, (printNumber special last o num conv.base s precision
      (conv.type flags)).printed =
        o.printed ++ (conv.number flags num s precision).bytes special stored := by
    intro last o
    have hprint := printNumber_eq special last o (conv.number flags num s precision)
    exact ⟨_, (congrArg Out.printed hprint).trans printed_puts⟩
  constructor
  · intro h
    obtain ⟨bytes, hbytes, hformatted⟩ := h 0 { str := 0 }
    obtain ⟨stored, hstored⟩ := hprinted 0 { str := 0 }
    obtain rfl := List.append_cancel_left (hbytes.symm.trans hstored)
    exact reads_iff.mp hformatted.value
  · intro h last o
    obtain ⟨stored, hstored⟩ := hprinted last o
    exact ⟨_, hstored, formatted_bytes stored (reads_iff.mpr h)⟩

/-- `%o` prints 8 as it is. -/
theorem octal_eight : ¬ ∀ (special : Bool) (conv : Conversion) (flags : Flags) (num : BitVec 32)
    (s precision : Int) (last : BitVec 32) (o : Out), ∃ bytes,
      (printNumber special last o num conv.base s precision (conv.type flags)).printed =
        o.printed ++ bytes ∧ Formatted special conv flags num s precision bytes := by
  intro h
  obtain ⟨bytes, hbytes, hformatted⟩ := h false .o {} 8 (-1) (-1) 100 { str := 0 }
  have hprinted : (printNumber false 100 { str := 0 } 8 8 (-1) (-1)
      (Conversion.o.type {})).printed = [0x38] := by
    decide +kernel
  obtain rfl : [0x38] = bytes := hprinted.symm.trans hbytes
  exact absurd hformatted.value (by decide)

end ControlRTT.Kernel.Printf

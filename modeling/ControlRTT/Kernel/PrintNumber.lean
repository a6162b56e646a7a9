import Mathlib.Data.Nat.Digits.Defs
import Mathlib.Data.BitVec

/-! # print_number (kservice.c)

`print_number` prints digits of base 10 or, whatever else `base` is, of base 16, as `divide` has
it: what `%o` prints is read back in base 8 only below 8 (`printNumber_reads_iff`). Widths are
numbers that do not overflow an `int`. -/
namespace ControlRTT.Kernel.Printf

def space : UInt8 := 0x20

def zero : UInt8 := 0x30

def plusSign : UInt8 := 0x2b

def minusSign : UInt8 := 0x2d

/-- The address of the next byte, what has been stored, and what has been printed, stored or
not. -/
structure Out where
  str : BitVec 32
  stores : List (BitVec 32 × UInt8) := []
  printed : List UInt8 := []

/-- `if (buf <= end) *buf = c; ++ buf;` -/
def Out.put (last : BitVec 32) (o : Out) (c : UInt8) : Out where
  str := o.str + 1
  stores := if o.str ≤ last then o.stores ++ [(o.str, c)] else o.stores
  printed := o.printed ++ [c]

def Out.puts (last : BitVec 32) (o : Out) (bytes : List UInt8) : Out := bytes.foldl (Out.put last) o

/-- The bits of `type`. -/
structure Flags where
  zeropad : Bool := false
  sign : Bool := false
  plus : Bool := false
  space : Bool := false
  left : Bool := false
  special : Bool := false
  large : Bool := false
  deriving DecidableEq, Repr

def smallDigits : List UInt8 := [0x30, 0x31, 0x32, 0x33, 0x34, 0x35, 0x36, 0x37, 0x38, 0x39,
  0x61, 0x62, 0x63, 0x64, 0x65, 0x66]

def largeDigits : List UInt8 := [0x30, 0x31, 0x32, 0x33, 0x34, 0x35, 0x36, 0x37, 0x38, 0x39,
  0x41, 0x42, 0x43, 0x44, 0x45, 0x46]

def divide (n : BitVec 32) (base : Nat) : BitVec 32 × BitVec 32 :=
  if base = 10 then (n % 10, n / 10) else (n % 16, n / 16)

/-- `while (num != 0) tmp[i++] = digits[divide(&num, base)];` -/
def tmpDigits (digits : List UInt8) (base : Nat) (num : BitVec 32) : List UInt8 :=
  if num = 0 then []
  else digits.getD (divide num base).1.toNat 0 :: tmpDigits digits base (divide num base).2
termination_by num.toNat
decreasing_by
  have hpos : 0 < num.toNat := by bv_omega
  unfold divide
  split
  · exact Nat.div_lt_self hpos (by decide)
  · exact Nat.div_lt_self hpos (by decide)

/-- `while (size-- > 0) { if (buf <= end) *buf = c; ++ buf; }` -/
def pad (last : BitVec 32) (c : UInt8) (size : Int) (o : Out) : Int × Out :=
  if 0 < size then pad last c (size - 1) (o.put last c) else (size - 1, o)
termination_by size.toNat
decreasing_by omega

/-- `while (i < precision--) { if (buf <= end) *buf = '0'; ++ buf; }` -/
def padPrecision (last : BitVec 32) (i : Nat) (precision : Int) (o : Out) : Out :=
  if i < precision then padPrecision last i (precision - 1) (o.put last zero) else o
termination_by precision.toNat
decreasing_by omega

/-- The sign, which is printed if there is one, and the number that is left. -/
def getSign (type : Flags) (num : BitVec 32) : Option UInt8 × BitVec 32 :=
  if type.sign then
    if num.slt 0 then (some minusSign, -num)
    else if type.plus then (some plusSign, num)
    else if type.space then (some space, num)
    else (none, num)
  else (none, num)

/-- The spaces before the sign, where zeros or the left side are not asked for; `size` and the
output. -/
def putSpaces (last : BitVec 32) (type : Flags) (sign : Option UInt8) (st : Int × Out) :
    Int × Out :=
  if ¬ (type.zeropad ∨ type.left) then
    let size := if sign.isSome ∧ st.1 > 0 then st.1 - 1 else st.1
    pad last space size st.2
  else st

def putSign (last : BitVec 32) (sign : Option UInt8) (st : Int × Out) : Int × Out :=
  match sign with
  | some sign => (if st.2.str ≤ last then st.1 - 1 else st.1, st.2.put last sign)
  | none => st

/-- `special` is if `RT_PRINTF_SPECIAL` is defined. -/
def putSpecial (special : Bool) (last : BitVec 32) (base : Nat) (type : Flags) (o : Out) : Out :=
  if special ∧ type.special then
    if base = 8 then o.put last zero
    else if base = 16 then (o.put last zero).put last (if type.large then 0x58 else 0x78)
    else o
  else o

/-- `no align to the left` -/
def putWidth (last : BitVec 32) (type : Flags) (st : Int × Out) : Int × Out :=
  if ¬ type.left then pad last (if type.zeropad then zero else space) st.1 st.2 else st

def printNumber (special : Bool) (last : BitVec 32) (o : Out) (num : BitVec 32) (base : Nat)
    (s precision : Int) (type : Flags) : Out :=
  let digits := if type.large then largeDigits else smallDigits
  let type := if type.left then { type with zeropad := false } else type
  let (sign, num) := getSign type num
  let size :=
    if special ∧ type.special then
      if base = 16 then s - 2 else if base = 8 then s - 1 else s
    else s
  let tmp := if num = 0 then [zero] else tmpDigits digits base num
  let precision := if tmp.length > precision then (tmp.length : Int) else precision
  let st := putSign last sign (putSpaces last type sign (size - precision, o))
  let st := putWidth last type (st.1, putSpecial special last base type st.2)
  let o := padPrecision last tmp.length precision st.2
  -- `while (i-- > 0)` goes through `tmp` from its end
  let o := o.puts last tmp.reverse
  (pad last space st.1 o).2

/-! ## Bytes -/

section
variable {last : BitVec 32} {o : Out} {c : UInt8} {bytes more : List UInt8}

@[simp] theorem puts_nil : o.puts last [] = o := rfl

@[simp] theorem puts_cons : o.puts last (c :: bytes) = (o.put last c).puts last bytes := rfl

theorem puts_append : o.puts last (bytes ++ more) = (o.puts last bytes).puts last more :=
  List.foldl_append

theorem printed_puts : (o.puts last bytes).printed = o.printed ++ bytes := by
  induction bytes generalizing o with
  | nil => simp
  | cons c bytes ih =>
    rw [puts_cons, ih]
    simp [Out.put]

theorem str_puts : (o.puts last bytes).str = o.str + BitVec.ofNat 32 bytes.length := by
  induction bytes generalizing o with
  | nil => simp
  | cons c bytes ih =>
    rw [puts_cons, ih, List.length_cons]
    simp only [Out.put, BitVec.ofNat_add]
    bv_omega

theorem pad_eq (last : BitVec 32) (c : UInt8) (size : Int) (o : Out) : pad last c size o =
    (if 0 < size then -1 else size - 1, o.puts last (List.replicate size.toNat c)) := by
  fun_induction pad last c size o with
  | case1 size o hpos ih =>
    have hsize : size.toNat = (size - 1).toNat + 1 := by omega
    rw [ih, if_pos hpos, hsize, List.replicate_succ, puts_cons]
    split
    · rfl
    · congr 1
      omega
  | case2 size o hpos =>
    have hsize : size.toNat = 0 := by omega
    rw [if_neg hpos, hsize]
    rfl

theorem padPrecision_eq (last : BitVec 32) (i : Nat) (precision : Int) (o : Out) :
    padPrecision last i precision o =
      o.puts last (List.replicate (precision - i).toNat zero) := by
  fun_induction padPrecision last i precision o with
  | case1 precision o hlt ih =>
    have hleft : (precision - i).toNat = (precision - 1 - i).toNat + 1 := by omega
    rw [ih, hleft, List.replicate_succ, puts_cons]
  | case2 precision o hlt =>
    have hnone : (precision - i).toNat = 0 := by omega
    rw [hnone]
    rfl

end

/-! ## The parts of a number -/

/-- A number to print, and how. -/
structure Number where
  num : BitVec 32
  base : Nat
  s : Int
  precision : Int
  type : Flags

namespace Number
variable (special : Bool) (n : Number)

def signBytes : List UInt8 := (getSign n.type n.num).1.toList

def prefixBytes : List UInt8 :=
  if special ∧ n.type.special then
    if n.base = 16 then [zero, if n.type.large then 0x58 else 0x78]
    else if n.base = 8 then [zero]
    else []
  else []

def digits : List UInt8 := if n.type.large then largeDigits else smallDigits

/-- What `tmp` holds. -/
def tmp : List UInt8 :=
  if (getSign n.type n.num).2 = 0 then [zero]
  else tmpDigits n.digits n.base (getSign n.type n.num).2

/-- The width that is left for padding and the sign. -/
def size : Int :=
  n.s - (n.prefixBytes special).length - max (n.tmp.length : Int) n.precision

/-- Spaces before the sign. -/
def before : Nat :=
  if n.type.left ∨ n.type.zeropad then 0 else (n.size special - n.signBytes.length).toNat

/-- What is left of the width behind the sign, which is taken into account if it is stored. -/
def behind (stored : Bool) : Nat :=
  (n.size special - if stored then n.signBytes.length else 0).toNat

/-- Zeros of a width, before those of the precision. -/
def zeros (stored : Bool) : Nat :=
  if ¬ n.type.left ∧ n.type.zeropad then n.behind special stored else 0

/-- Spaces behind the digits. -/
def after (stored : Bool) : Nat := if n.type.left then n.behind special stored else 0

/-- What is printed. -/
def bytes (stored : Bool) : List UInt8 :=
  List.replicate (n.before special) space ++ (n.signBytes ++ (n.prefixBytes special ++
    (List.replicate (n.zeros special stored) zero ++
      (List.replicate (n.precision - n.tmp.length).toNat zero ++
        (n.tmp.reverse ++ List.replicate (n.after special stored) space)))))

end Number

/-- The address of the sign is not behind the last one. -/
def SignStored (special : Bool) (last : BitVec 32) (o : Out) (n : Number) : Bool :=
  decide (o.str + BitVec.ofNat 32 (n.before special) ≤ last)

section
variable (special : Bool) (last : BitVec 32) (o : Out) (n : Number)

theorem putSpecial_eq : putSpecial special last n.base n.type o =
    o.puts last (n.prefixBytes special) := by
  unfold putSpecial Number.prefixBytes
  split
  · by_cases h16 : n.base = 16
    · rw [h16]
      rfl
    · rw [if_neg h16, if_neg h16]
      split
      · rfl
      · rfl
  · rfl

theorem size_eq : (if special ∧ n.type.special then
      if n.base = 16 then n.s - 2 else if n.base = 8 then n.s - 1 else n.s
    else n.s) = n.s - (n.prefixBytes special).length := by
  unfold Number.prefixBytes
  split
  · split
    · rfl
    · split
      · rfl
      · simp
  · simp

theorem pad_nonpos (c : UInt8) {size : Int} (h : size ≤ 0) :
    pad last c size o = (size - 1, o) := by
  rw [pad, if_neg (by omega)]

theorem putSign_eq (sign : Option UInt8) (st : Int × Out) : putSign last sign st =
    (st.1 - (if st.2.str ≤ last then sign.toList.length else 0), st.2.puts last sign.toList) := by
  cases sign with
  | none => simp [putSign]
  | some sign => 
    by_cases hstored : st.2.str ≤ last
    · simp [putSign, hstored]
    · simp [putSign, hstored]

/-- Behind the sign and the prefix there is the width as zeros, the number, and the width as
spaces, of which at most one is there. -/
theorem putWidth_eq {type : Flags} (hleft : type.left = n.type.left)
    (hzeropad : type.zeropad = (!n.type.left && n.type.zeropad)) {size : Int} {stored : Bool}
    (hsize : if n.type.left ∨ n.type.zeropad then size.toNat = n.behind special stored
      else size ≤ 0)
    (number : List UInt8) :
    (pad last space (putWidth last type (size, o)).1
      ((putWidth last type (size, o)).2.puts last number)).2 =
        o.puts last (List.replicate (n.zeros special stored) zero ++ (number ++
          List.replicate (n.after special stored) space)) := by
  unfold putWidth Number.zeros Number.after
  rw [hleft, hzeropad]
  cases hl : n.type.left with
  | true =>
    rw [hl, if_pos (.inl rfl)] at hsize
    simp [pad_eq, hsize, puts_append]
  | false =>
    cases hz : n.type.zeropad with
    | true =>
      rw [hl, hz, if_pos (.inr rfl)] at hsize
      have hnone : (if 0 < size then -1 else size - 1) ≤ 0 := by split <;> omega
      simp [pad_eq, hsize, puts_append, Int.toNat_of_nonpos hnone]
    | false =>
      rw [hl, hz, if_neg (by simp)] at hsize
      simp [pad_nonpos last _ _ hsize, pad_nonpos last _ _ (show size - 1 ≤ 0 by omega)]

/-- Up to the sign. -/
theorem putSpaces_putSign {type : Flags} (hleft : type.left = n.type.left)
    (hzeropad : type.zeropad = (!n.type.left && n.type.zeropad)) :
    (if n.type.left ∨ n.type.zeropad then
      (putSign last (getSign n.type n.num).1 (putSpaces last type (getSign n.type n.num).1
        (n.size special, o))).1.toNat = n.behind special (SignStored special last o n)
    else (putSign last (getSign n.type n.num).1 (putSpaces last type (getSign n.type n.num).1
        (n.size special, o))).1 ≤ 0) ∧
      (putSign last (getSign n.type n.num).1 (putSpaces last type (getSign n.type n.num).1
        (n.size special, o))).2 =
          o.puts last (List.replicate (n.before special) space ++ n.signBytes) := by
  rw [putSign_eq]
  unfold putSpaces Number.behind SignStored Number.signBytes
  rw [hleft, hzeropad]
  by_cases hside : n.type.left ∨ n.type.zeropad
  · have hside' : (!n.type.left && n.type.zeropad) = true ∨ n.type.left = true := by
      cases hl : n.type.left with
      | true => simp
      | false => simpa [hl] using hside
    have hbefore : n.before special = 0 := by rw [Number.before, if_pos hside]
    rw [if_pos hside, if_neg (not_not_intro hside'), hbefore]
    simp
  · have hside' : ¬ ((!n.type.left && n.type.zeropad) = true ∨ n.type.left = true) := by
      cases hl : n.type.left with
      | true => simp [hl] at hside
      | false => simpa [hl] using hside
    have hbefore : n.before special = (if (getSign n.type n.num).1.isSome = true ∧
        n.size special > 0 then n.size special - 1 else n.size special).toNat := by
      rw [Number.before, if_neg hside, Number.signBytes]
      cases (getSign n.type n.num).1 with
      | none => simp
      | some sign =>
        simp only [Option.toList_some, List.length_singleton, Option.isSome_some, true_and]
        split <;> omega
    rw [if_neg hside, if_pos hside', hbefore, pad_eq, puts_append]
    refine ⟨?_, rfl⟩
    dsimp only
    split <;> split <;> omega

theorem printNumber_eq :
    printNumber special last o n.num n.base n.s n.precision n.type =
      o.puts last (n.bytes special (SignStored special last o n)) := by
  obtain ⟨type, htype⟩ : ∃ type : Flags,
    type = if n.type.left then { n.type with zeropad := false } else n.type := ⟨_, rfl⟩
  have hleft : type.left = n.type.left := by rw [htype]; split <;> rfl
  have hzeropad : type.zeropad = (!n.type.left && n.type.zeropad) := by
    rw [htype]
    cases n.type.left <;> rfl
  have hsign : getSign type n.num = getSign n.type n.num := by rw [htype]; split <;> rfl
  have hspecial : ∀ o, putSpecial special last n.base type o =
      o.puts last (n.prefixBytes special) := by
    intro o
    rw [← putSpecial_eq, htype]
    split <;> rfl
  have hif : type.special = n.type.special := by rw [htype]; split <;> rfl
  have hlarge : type.large = n.type.large := by rw [htype]; split <;> rfl
  obtain ⟨precision, hprecision⟩ : ∃ precision : Int, precision = if (n.tmp.length : Int) >
    n.precision then (n.tmp.length : Int) else n.precision := ⟨_, rfl⟩
  obtain ⟨st, hst⟩ : ∃ st, st = putSign last (getSign n.type n.num).1
    (putSpaces last type (getSign n.type n.num).1
      (n.s - (n.prefixBytes special).length - precision, o)) := ⟨_, rfl⟩
  have hprint : printNumber special last o n.num n.base n.s n.precision n.type =
      (pad last space (putWidth last type (st.1, putSpecial special last n.base type st.2)).1
        ((padPrecision last n.tmp.length precision
          (putWidth last type (st.1, putSpecial special last n.base type st.2)).2).puts last
            n.tmp.reverse)).2 := by
    rw [hst, hprecision]
    unfold printNumber
    rw [← htype]
    dsimp only
    rw [hsign, hif, size_eq]
    rfl
  have hmax : n.s - (n.prefixBytes special).length - precision = n.size special := by
    rw [hprecision, Number.size]
    split <;> omega
  have hzeros : (precision - n.tmp.length).toNat = (n.precision - n.tmp.length).toNat := by
    rw [hprecision]
    split <;> omega
  obtain ⟨hsize, hout⟩ := putSpaces_putSign special last o n hleft hzeropad
  rw [hmax] at hst
  rw [← hst] at hsize hout
  rw [hprint, hspecial, padPrecision_eq, hzeros, ← puts_append,
    putWidth_eq special last _ n hleft hzeropad hsize, hout, Number.bytes]
  simp only [puts_append]

end

end ControlRTT.Kernel.Printf

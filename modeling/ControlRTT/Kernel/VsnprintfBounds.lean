import ControlRTT.Kernel.Vsnprintf

/-! # The bounds of rt_vsnprintf

What is printed is the same for every size, except that `print_number` takes its sign into account
only if it is stored: with padding behind it, a sign that does not fit makes the output longer. A
size of 0 lets the stores go up to the end of memory (`rtVsnprintf_bounded_iff`). -/
namespace ControlRTT.Kernel.Vsnprintf
open Printf StringCompare

/-! ## The bytes of a piece -/

namespace Piece

def bytes (special stored : Bool) : Piece → List UInt8
  | byte c => [c]
  | char flags fieldWidth c =>
    List.replicate (if flags.left then 0 else (fieldWidth - 1).toNat) space ++
      (c :: List.replicate (if flags.left then (fieldWidth - 1).toNat else 0) space)
  | string flags fieldWidth len s =>
    List.replicate (if flags.left then 0 else (fieldWidth - len).toNat) space ++
      (s.take len.toNat ++
        List.replicate (if flags.left then (fieldWidth - len).toNat else 0) space)
  | number n => n.bytes special stored
  | other c => '%'.toUInt8 :: c.toList

/-- The sign, if there is one, is not behind the last address. -/
def stored (special : Bool) (last str : BitVec 32) : Piece → Bool
  | number n => SignStored special last { str } n
  | _ => true

/-- There is a sign with padding behind it, which is longer if the sign is not stored. -/
def Slips (special : Bool) : Piece → Prop
  | number n => n.signBytes ≠ [] ∧ (n.type.left ∨ n.type.zeropad) ∧ 0 < n.size special
  | _ => False

end Piece

section
variable {special : Bool} {last : BitVec 32} {o : Out}

theorem padChar_eq (fieldWidth : Int) : padChar last fieldWidth o =
    (if 0 < fieldWidth - 1 then 0 else fieldWidth - 1,
      o.puts last (List.replicate (fieldWidth - 1).toNat space)) := by
  fun_induction padChar last fieldWidth o with
  | case1 fieldWidth o hpos ih =>
    have hleft : (fieldWidth - 1).toNat = (fieldWidth - 1 - 1).toNat + 1 := by omega
    rw [ih, if_pos hpos, hleft, List.replicate_succ, puts_cons]
    congr 1
    split <;> omega
  | case2 fieldWidth o hpos =>
    have hnone : (fieldWidth - 1).toNat = 0 := by omega
    rw [if_neg hpos, hnone]
    rfl

theorem padString_eq (len fieldWidth : Int) : padString last len fieldWidth o =
    (if len < fieldWidth then len - 1 else fieldWidth - 1,
      o.puts last (List.replicate (fieldWidth - len).toNat space)) := by
  fun_induction padString last len fieldWidth o with
  | case1 fieldWidth o hlt ih =>
    have hleft : (fieldWidth - len).toNat = (fieldWidth - 1 - len).toNat + 1 := by omega
    rw [ih, if_pos hlt, hleft, List.replicate_succ, puts_cons]
    congr 1
    split <;> omega
  | case2 fieldWidth o hlt =>
    have hnone : (fieldWidth - len).toNat = 0 := by omega
    rw [if_neg hlt, hnone]
    rfl

theorem put_eq (p : Piece) : p.put special last o =
    o.puts last (p.bytes special (p.stored special last o.str)) := by
  cases p with
  | byte c => rfl
  | char flags fieldWidth c =>
    simp only [Piece.put, Piece.bytes]
    by_cases hleft : flags.left = true
    · simp [hleft, padChar_eq]
    · have hnone : ((if 0 < fieldWidth - 1 then 0 else fieldWidth - 1) - 1).toNat = 0 := by
        split <;> omega
      simp only [if_pos hleft, if_neg hleft, padChar_eq, hnone, puts_append, puts_cons]
  | string flags fieldWidth len s =>
    simp only [Piece.put, Piece.bytes]
    by_cases hleft : flags.left = true
    · simp [hleft, padString_eq, puts_append]
    · have hnone : ((if len < fieldWidth then len - 1 else fieldWidth - 1) - len).toNat = 0 := by
        split <;> omega
      simp only [if_pos hleft, if_neg hleft, padString_eq, hnone, puts_append]
  | number n => exact printNumber_eq special last o n
  | other c => rfl

/-- The padding behind a sign. -/
theorem behind_eq (n : Number) (stored : Bool) (h : ¬ (n.signBytes ≠ [] ∧ 0 < n.size special)) :
    n.behind special stored = n.behind special true := by
  unfold Number.behind
  cases stored with
  | true => rfl
  | false =>
    by_cases hsign : n.signBytes = []
    · simp [hsign]
    · have hsize : n.size special ≤ 0 := by
        by_contra hpos
        exact h ⟨hsign, by omega⟩
      simp only [Bool.false_eq_true, if_true, if_false]
      omega

theorem bytes_eq_of_not_slips {p : Piece} {stored : Bool}
    (h : ¬ (p.Slips special ∧ stored = false)) : p.bytes special stored = p.bytes special true := by
  cases stored with
  | true => rfl
  | false =>
    cases p with
    | number n =>
      have hslips : ¬ (n.signBytes ≠ [] ∧ (n.type.left ∨ n.type.zeropad) ∧ 0 < n.size special) :=
        fun hs => h ⟨hs, rfl⟩
      simp only [Piece.bytes, Number.bytes, Number.zeros, Number.after]
      by_cases hside : n.type.left ∨ n.type.zeropad
      · rw [behind_eq n false fun hs => hslips ⟨hs.1, hside, hs.2⟩]
      · rw [not_or] at hside
        simp [hside.1, hside.2]
    | byte c => rfl
    | char flags fieldWidth c => rfl
    | string flags fieldWidth len s => rfl
    | other c => rfl

theorem length_signBytes_le (n : Number) : n.signBytes.length ≤ 1 := by
  unfold Number.signBytes
  cases (getSign n.type n.num).1 with
  | none => exact Nat.zero_le _
  | some sign => exact Nat.le_refl _

theorem length_bytes_of_slips {p : Piece} (h : p.Slips special) :
    (p.bytes special false).length = (p.bytes special true).length + 1 := by
  cases p with
  | number n =>
    obtain ⟨hsign, hside, hsize⟩ := h
    have hone : n.signBytes.length = 1 := by
      have hpos := List.length_pos_iff.mpr hsign
      have hle := length_signBytes_le n
      omega
    have hbehind : n.behind special false = n.behind special true + 1 := by
      simp only [Number.behind, hone, Bool.false_eq_true, if_true, if_false]
      omega
    simp only [Piece.bytes, Number.bytes, Number.zeros, Number.after, List.length_append,
      List.length_replicate, hbehind]
    cases hl : n.type.left with
    | true => simp; omega
    | false =>
      have hz : n.type.zeropad = true := by simpa [hl] using hside
      simp [hz]
      omega
  | byte c => cases h
  | char flags fieldWidth c => cases h
  | string flags fieldWidth len s => cases h
  | other c => cases h

theorem length_bytes_pos {p : Piece} (h : p.Slips special) :
    0 < (p.bytes special true).length := by
  cases p with
  | number n =>
    have hpos := List.length_pos_iff.mpr h.1
    simp only [Piece.bytes, Number.bytes, List.length_append]
    omega
  | byte c => cases h
  | char flags fieldWidth c => cases h
  | string flags fieldWidth len s => cases h
  | other c => cases h

end

/-! ## The pieces of a format -/

def pieces (special : Bool) (string : BitVec 32 → CStr) : Input → Option (List Piece)
  | { fmt := [], .. } => some []
  | { fmt := c :: fmt, args } =>
    match _h : readPiece special string c { fmt, args } with
    | none => none
    | some (piece, i) => (pieces special string i).map (piece :: ·)
termination_by i => i.fmt.length
decreasing_by exact Nat.lt_succ_of_le (length_readPiece _h)

theorem format_eq (special : Bool) (string : BitVec 32 → CStr) (last : BitVec 32) (o : Out)
    (i : Input) : format special string last o i =
      (pieces special string i).map (List.foldl (Piece.put special last) o) := by
  fun_induction format special string last o i with
  | case1 o args => simp [pieces]
  | case2 o c fmt args hpiece =>
    rw [pieces]
    split
    · rfl
    · simp_all
  | case3 o c fmt args piece i hpiece ih =>
    rw [pieces, ih]
    split
    · simp_all
    · rename_i piece' i' hpiece'
      obtain ⟨rfl, rfl⟩ : piece = piece' ∧ i = i' := by simpa [hpiece] using hpiece'
      rw [Option.map_map]
      rfl

/-- What a run prints from `str` on. -/
def printedBytes (special : Bool) (last str : BitVec 32) : List Piece → List UInt8
  | [] => []
  | p :: ps =>
    let bytes := p.bytes special (p.stored special last str)
    bytes ++ printedBytes special last (str + BitVec.ofNat 32 bytes.length) ps

/-- What is printed if each sign is stored. -/
def fullBytes (special : Bool) (ps : List Piece) : List UInt8 := ps.flatMap (·.bytes special true)

instance (special : Bool) : DecidablePred (Piece.Slips special)
  | .byte _ | .char .. | .string .. | .other _ => .isFalse id
  | .number n =>
    inferInstanceAs (Decidable (n.signBytes ≠ [] ∧ (n.type.left ∨ n.type.zeropad) ∧
      0 < n.size special))

/-- How many signs with padding behind them are not stored. -/
def slips (special : Bool) (last str : BitVec 32) : List Piece → Nat
  | [] => 0
  | p :: ps =>
    let bytes := p.bytes special (p.stored special last str)
    (if p.Slips special ∧ p.stored special last str = false then 1 else 0) +
      slips special last (str + BitVec.ofNat 32 bytes.length) ps

section
variable {special : Bool} {last str : BitVec 32} {o : Out} {ps : List Piece}

theorem foldl_put : ps.foldl (Piece.put special last) o =
    o.puts last (printedBytes special last o.str ps) := by
  induction ps generalizing o with
  | nil => rfl
  | cons p ps ih => rw [List.foldl_cons, put_eq, ih, str_puts, printedBytes, puts_append]

theorem length_printedBytes : (printedBytes special last str ps).length =
    (fullBytes special ps).length + slips special last str ps := by
  induction ps generalizing str with
  | nil => rfl
  | cons p ps ih =>
    rw [printedBytes, fullBytes, List.flatMap_cons, slips, List.length_append, List.length_append,
      ih, fullBytes]
    split
    · rename_i h
      rw [h.2, length_bytes_of_slips h.1]
      omega
    · rename_i h
      rw [bytes_eq_of_not_slips h]
      omega

theorem slips_le : slips special last str ps ≤ (fullBytes special ps).length := by
  induction ps generalizing str with
  | nil => exact Nat.le_refl _
  | cons p ps ih =>
    rw [fullBytes, List.flatMap_cons, slips, List.length_append]
    refine Nat.add_le_add ?_ ih
    split
    · rename_i h
      exact length_bytes_pos h.1
    · exact Nat.zero_le _

/-- Where no sign slips, the output is the whole one. -/
theorem printedBytes_of_slips (h : slips special last str ps = 0) :
    printedBytes special last str ps = fullBytes special ps := by
  induction ps generalizing str with
  | nil => rfl
  | cons p ps ih =>
    obtain ⟨hp, hps⟩ := Nat.add_eq_zero_iff.mp h
    have hbytes : p.bytes special (p.stored special last str) = p.bytes special true :=
      bytes_eq_of_not_slips fun hs => absurd ((if_pos hs).symm.trans hp) (by decide)
    rw [printedBytes, ih hps, hbytes]
    rfl

theorem slips_eq_zero_iff : slips special last str ps = 0 ↔
    ∀ front p behind, ps = front ++ p :: behind → p.Slips special →
      p.stored special last (str + BitVec.ofNat 32 (fullBytes special front).length) = true := by
  induction ps generalizing str with
  | nil => simp [slips]
  | cons p ps ih =>
    have hstep : slips special last str (p :: ps) = 0 ↔
        ¬ (p.Slips special ∧ p.stored special last str = false) ∧
          slips special last (str + BitVec.ofNat 32 (p.bytes special true).length) ps = 0 := by
      rw [slips, Nat.add_eq_zero_iff]
      constructor
      · rintro ⟨hp, hps⟩
        have hnot : ¬ (p.Slips special ∧ p.stored special last str = false) := fun hs =>
          absurd ((if_pos hs).symm.trans hp) (by decide)
        rw [bytes_eq_of_not_slips hnot] at hps
        exact ⟨hnot, hps⟩
      · rintro ⟨hnot, hps⟩
        rw [bytes_eq_of_not_slips hnot]
        exact ⟨if_neg hnot, hps⟩
    have hshift (front : List Piece) : str + BitVec.ofNat 32 (p.bytes special true).length +
        BitVec.ofNat 32 (fullBytes special front).length =
          str + BitVec.ofNat 32 (fullBytes special (p :: front)).length := by
      rw [fullBytes, fullBytes, List.flatMap_cons, List.length_append, BitVec.ofNat_add,
        BitVec.add_assoc]
    rw [hstep, ih]
    constructor
    · rintro ⟨hp, hps⟩ front q behind heq hq
      cases front with
      | nil =>
        obtain ⟨rfl, rfl⟩ := List.cons.inj heq
        have hstored : p.stored special last str ≠ false := fun hs => hp ⟨hq, hs⟩
        simpa [fullBytes] using hstored
      | cons p' front =>
        obtain ⟨rfl, rfl⟩ := List.cons.inj heq
        rw [← hshift]
        exact hps front q behind rfl hq
    · intro h
      refine ⟨?_, ?_⟩
      · rintro ⟨hp, hs⟩
        have hstored := h [] p ps rfl hp
        simp [fullBytes, hs] at hstored
      · rintro front q behind rfl hq
        rw [hshift]
        exact h (p :: front) q behind rfl hq

/-- Nothing slips where every address is stored to. -/
theorem slips_all : slips special (-1) str ps = 0 := by
  rw [slips_eq_zero_iff]
  intro front p behind _ hp
  cases p with
  | number n =>
    refine decide_eq_true ?_
    bv_omega
  | byte c => rfl
  | char flags fieldWidth c => rfl
  | string flags fieldWidth len s => rfl
  | other c => rfl

end

/-! ## Calls -/

/-- What is stored last at an address. -/
def lastStore (stores : List (BitVec 32 × UInt8)) (a : BitVec 32) : Option UInt8 :=
  (stores.reverse.find? (·.1 = a)).map (·.2)

/-- What is printed where there is room for all of it. -/
def fullOutput (special : Bool) (string : BitVec 32 → CStr) (fmt : CStr)
    (args : Nat → BitVec 32) : Option (List UInt8) :=
  (format special string (-1) { str := 0 } { fmt := fmt.bytes, args }).map (·.printed)

/-- A call that stores into its buffer only, ends what it has stored, and returns the length of
the whole output, whatever its size is. -/
def Bounded (special : Bool) (string : BitVec 32 → CStr) (buf size : BitVec 32) (fmt : CStr)
    (args : Nat → BitVec 32) : Prop :=
  ∃ stores ret output, rtVsnprintf special string buf size fmt args = some (stores, ret) ∧
    fullOutput special string fmt args = some output ∧
    (∀ st ∈ stores, buf.toNat ≤ st.1.toNat ∧ st.1.toNat < buf.toNat + size.toNat) ∧
    (0 < size.toNat → lastStore stores
      (buf + BitVec.ofNat 32 (min output.length (size.toNat - 1))) = some 0) ∧
    ret.toInt = output.length

/-- No `int` overflows, the buffer is not empty, the output does not pass the end of memory nor
the return type, and each sign with padding behind it has its place in the buffer. -/
def Fits (special : Bool) (string : BitVec 32 → CStr) (buf size : BitVec 32) (fmt : CStr)
    (args : Nat → BitVec 32) : Prop :=
  ∃ ps, pieces special string { fmt := fmt.bytes, args } = some ps ∧ 0 < size.toNat ∧
    (fullBytes special ps).length < 2 ^ 31 ∧
    buf.toNat + (fullBytes special ps).length < 2 ^ 32 ∧
    ∀ front p behind, ps = front ++ p :: behind → p.Slips special →
      (fullBytes special front).length < size.toNat

section
variable {special : Bool} {string : BitVec 32 → CStr} {buf size last : BitVec 32} {fmt : CStr}
  {args : Nat → BitVec 32} {o : Out} {bytes : List UInt8} {ps : List Piece}

theorem mem_stores_puts {st : BitVec 32 × UInt8} : st ∈ (o.puts last bytes).stores ↔
    st ∈ o.stores ∨ ∃ i, bytes[i]? = some st.2 ∧ st.1 = o.str + BitVec.ofNat 32 i ∧
      st.1 ≤ last := by
  induction bytes generalizing o with
  | nil => simp
  | cons c bytes ih =>
    have hshift (i : Nat) : (o.put last c).str + BitVec.ofNat 32 i =
        o.str + BitVec.ofNat 32 (i + 1) := by
      simp only [Out.put, BitVec.ofNat_add]
      bv_omega
    have hput : st ∈ (o.put last c).stores ↔
        st ∈ o.stores ∨ c = st.2 ∧ st.1 = o.str ∧ st.1 ≤ last := by
      obtain ⟨a, d⟩ := st
      simp only [Out.put]
      split
      · rename_i hle
        simp only [List.mem_append, List.mem_singleton, Prod.mk.injEq]
        constructor
        · rintro (h | ⟨rfl, rfl⟩)
          · exact .inl h
          · exact .inr ⟨rfl, rfl, hle⟩
        · rintro (h | ⟨rfl, rfl, -⟩)
          · exact .inl h
          · exact .inr ⟨rfl, rfl⟩
      · rename_i hle
        constructor
        · exact .inl
        · rintro (h | ⟨rfl, rfl, hle'⟩)
          · exact h
          · exact absurd hle' hle
    rw [puts_cons, ih, hput]
    constructor
    · rintro ((h | ⟨hc, ha, hle⟩) | ⟨i, hi, ha, hle⟩)
      · exact .inl h
      · exact .inr ⟨0, congrArg some hc, by simpa using ha, hle⟩
      · exact .inr ⟨i + 1, hi, ha.trans (hshift i), hle⟩
    · rintro (h | ⟨i, hi, ha, hle⟩)
      · exact .inl (.inl h)
      · cases i with
        | zero => exact .inl (.inr ⟨Option.some.inj hi, by simpa using ha, hle⟩)
        | succ i => exact .inr ⟨i, hi, ha.trans (hshift i).symm, hle⟩

theorem lastStore_append (stores : List (BitVec 32 × UInt8)) (a : BitVec 32) (c : UInt8) :
    lastStore (stores ++ [(a, c)]) a = some c := by
  simp [lastStore]

theorem endOf_cases (h : 0 < size.toNat) :
    endOf buf size = -1 ∧ 2 ^ 32 < buf.toNat + size.toNat ∨
      (endOf buf size).toNat = buf.toNat + size.toNat - 1 ∧ buf.toNat + size.toNat ≤ 2 ^ 32 := by
  unfold endOf
  split
  · left
    refine ⟨rfl, ?_⟩
    bv_omega
  · right
    constructor
    · bv_omega
    · bv_omega

theorem rtVsnprintf_eq : rtVsnprintf special string buf size fmt args =
    (pieces special string { fmt := fmt.bytes, args }).map fun ps =>
      let o := Out.puts (endOf buf size) { str := buf }
        (printedBytes special (endOf buf size) buf ps)
      (o.stores ++ [(if o.str ≤ endOf buf size then o.str else endOf buf size, 0)],
        o.str - buf) := by
  rw [rtVsnprintf, format_eq, Option.map_map]
  congr 1
  funext ps
  rw [Function.comp_apply, foldl_put]

theorem fullOutput_eq : fullOutput special string fmt args =
    (pieces special string { fmt := fmt.bytes, args }).map (fullBytes special) := by
  rw [fullOutput, format_eq, Option.map_map]
  congr 1
  funext ps
  rw [Function.comp_apply, foldl_put, printed_puts, printedBytes_of_slips slips_all]
  rfl

theorem toNat_offset {i : Nat} (h : buf.toNat + i < 2 ^ 32) :
    (buf + BitVec.ofNat 32 i).toNat = buf.toNat + i := by
  bv_omega

/-- In front of the end of memory a byte is stored if it has its place in the buffer. -/
theorem le_endOf_iff (hsize : 0 < size.toNat) {i : Nat} (h : buf.toNat + i < 2 ^ 32) :
    buf + BitVec.ofNat 32 i ≤ endOf buf size ↔ i < size.toNat := by
  rw [BitVec.le_def, toNat_offset h]
  rcases @endOf_cases buf size hsize with ⟨hall, hwrap⟩ | ⟨hlast, -⟩
  · rw [hall]
    have hmax : (-1 : BitVec 32).toNat = 2 ^ 32 - 1 := rfl
    omega
  · omega

theorem stored_of_slips {p : Piece} (hp : p.Slips special) {str : BitVec 32} :
    p.stored special last str = true ↔ str ≤ last := by
  cases p with
  | number n =>
    have hbefore : n.before special = 0 := if_pos hp.2.1
    simp [Piece.stored, SignStored, hbefore]
  | byte c => cases hp
  | char flags fieldWidth c => cases hp
  | string flags fieldWidth len s => cases hp
  | other c => cases hp

theorem length_fullBytes_front {front behind : List Piece} {p : Piece}
    (h : ps = front ++ p :: behind) :
    (fullBytes special front).length ≤ (fullBytes special ps).length := by
  rw [h, fullBytes, fullBytes, List.flatMap_append, List.length_append]
  exact Nat.le_add_right _ _

/-- In front of the end of memory the signs have their places if nothing slips. -/
theorem slips_endOf_iff (hsize : 0 < size.toNat)
    (hend : buf.toNat + (fullBytes special ps).length < 2 ^ 32) :
    slips special (endOf buf size) buf ps = 0 ↔
      ∀ front p behind, ps = front ++ p :: behind → p.Slips special →
        (fullBytes special front).length < size.toNat := by
  rw [slips_eq_zero_iff]
  have hstep (front : List Piece) (p : Piece) (behind : List Piece)
      (heq : ps = front ++ p :: behind) (hp : p.Slips special) :
      p.stored special (endOf buf size)
          (buf + BitVec.ofNat 32 (fullBytes special front).length) = true ↔
        (fullBytes special front).length < size.toNat := by
    have hfront : (fullBytes special front).length ≤ (fullBytes special ps).length :=
      length_fullBytes_front heq
    rw [stored_of_slips hp, le_endOf_iff hsize (by omega)]
  constructor
  · exact fun h front p behind heq hp => (hstep front p behind heq hp).mp (h front p behind heq hp)
  · exact fun h front p behind heq hp => (hstep front p behind heq hp).mpr (h front p behind heq hp)

theorem toInt_ofNat_of_lt {n : Nat} (h : n < 2 ^ 31) : (BitVec.ofNat 32 n).toInt = n := by
  rw [BitVec.toInt_eq_toNat_of_lt]
  · rw [BitVec.toNat_ofNat, Nat.mod_eq_of_lt (by omega)]
  · rw [BitVec.toNat_ofNat]
    omega

theorem bounded_of_fits (h : Fits special string buf size fmt args) :
    Bounded special string buf size fmt args := by
  obtain ⟨ps, hps, hsize, hlen, hend, hsigns⟩ := h
  have hbytes := printedBytes_of_slips ((slips_endOf_iff hsize hend).mpr hsigns)
  have hstr : (Out.puts (endOf buf size) { str := buf } (fullBytes special ps)).str =
      buf + BitVec.ofNat 32 (fullBytes special ps).length := str_puts
  have hrun : rtVsnprintf special string buf size fmt args = some
      ((Out.puts (endOf buf size) { str := buf } (fullBytes special ps)).stores ++
        [(if (fullBytes special ps).length < size.toNat then
            buf + BitVec.ofNat 32 (fullBytes special ps).length else endOf buf size, 0)],
        BitVec.ofNat 32 (fullBytes special ps).length) := by
    rw [rtVsnprintf_eq, hps]
    simp only [Option.map_some, hbytes, hstr, le_endOf_iff hsize hend]
    rw [BitVec.add_comm, BitVec.add_sub_cancel]
  refine ⟨_, _, fullBytes special ps, hrun, by rw [fullOutput_eq, hps]; rfl, ?_, ?_, ?_⟩
  · intro st hst
    rcases List.mem_append.mp hst with hst | hst
    · obtain hnil | ⟨i, hi, ha, hle⟩ := mem_stores_puts.mp hst
      · cases hnil
      · have hlt := (List.getElem?_eq_some_iff.mp hi).1
        dsimp only at ha
        rw [ha] at hle ⊢
        rw [toNat_offset (by omega)]
        have hroom := (le_endOf_iff hsize (by omega)).mp hle
        omega
    · rw [List.mem_singleton.mp hst]
      dsimp only
      split
      · rw [toNat_offset hend]
        omega
      · rcases @endOf_cases buf size hsize with ⟨-, hwrap⟩ | ⟨hlast, -⟩
        · omega
        · omega
  · intro _
    split
    · rename_i hroom
      rw [Nat.min_eq_left (by omega)]
      exact lastStore_append _ _ _
    · rename_i hroom
      have hlast : endOf buf size = buf + BitVec.ofNat 32 (size.toNat - 1) := by
        rcases @endOf_cases buf size hsize with ⟨-, hwrap⟩ | ⟨hlast, hle⟩
        · omega
        · apply BitVec.eq_of_toNat_eq
          rw [hlast, toNat_offset (by omega)]
          omega
      rw [Nat.min_eq_right (by omega), hlast]
      exact lastStore_append _ _ _
  · exact toInt_ofNat_of_lt hlen

theorem fits_of_bounded (h : Bounded special string buf size fmt args) :
    Fits special string buf size fmt args := by
  obtain ⟨stores, ret, output, hrun, hfull, hstores, -, hret⟩ := h
  rw [rtVsnprintf_eq] at hrun
  rw [fullOutput_eq] at hfull
  obtain ⟨ps, hps, hrun⟩ := Option.map_eq_some_iff.mp hrun
  obtain rfl : fullBytes special ps = output := by simpa [hps] using hfull
  obtain ⟨rfl, rfl⟩ := Prod.mk.inj hrun
  have hstr : (Out.puts (endOf buf size) { str := buf }
      (printedBytes special (endOf buf size) buf ps)).str =
        buf + BitVec.ofNat 32 (printedBytes special (endOf buf size) buf ps).length := str_puts
  rw [hstr] at hstores hret
  have hsize : 0 < size.toNat := by
    have hnul := hstores _ (List.mem_append_right _ List.mem_cons_self)
    omega
  -- the length that is returned leaves no room for slips, of which each has a byte
  rw [BitVec.add_comm, BitVec.add_sub_cancel] at hret
  have hlen : (fullBytes special ps).length < 2 ^ 31 := by
    have hlt := (BitVec.ofNat 32 (printedBytes special (endOf buf size) buf ps).length).toInt_lt
    omega
  have hcount : (printedBytes special (endOf buf size) buf ps).length =
      (fullBytes special ps).length + slips special (endOf buf size) buf ps := length_printedBytes
  have hle : slips special (endOf buf size) buf ps ≤ (fullBytes special ps).length := slips_le
  have hslips : slips special (endOf buf size) buf ps = 0 := by
    have hint := BitVec.toInt_eq_toNat_cond
      (BitVec.ofNat 32 (printedBytes special (endOf buf size) buf ps).length)
    rw [BitVec.toNat_ofNat, Nat.mod_eq_of_lt (by omega)] at hint
    split at hint <;> omega
  rw [printedBytes_of_slips hslips] at hstores
  have hend : buf.toNat + (fullBytes special ps).length < 2 ^ 32 := by
    by_contra hpast
    obtain ⟨i, hi⟩ : ∃ i, buf.toNat + i = 2 ^ 32 := ⟨2 ^ 32 - buf.toNat, by omega⟩
    have hzero : buf + BitVec.ofNat 32 i = 0 := by bv_omega
    -- behind the end of memory there is address 0
    have hmem : ∃ c, ((0 : BitVec 32), c) ∈
        (Out.puts (endOf buf size) { str := buf } (fullBytes special ps)).stores ++
          [(if buf + BitVec.ofNat 32 (fullBytes special ps).length ≤ endOf buf size then
            buf + BitVec.ofNat 32 (fullBytes special ps).length else endOf buf size, 0)] := by
      by_cases hlast : i < (fullBytes special ps).length
      · refine ⟨(fullBytes special ps)[i], List.mem_append_left _ (mem_stores_puts.mpr (.inr ?_))⟩
        exact ⟨i, List.getElem?_eq_getElem hlast, hzero.symm, by bv_omega⟩
      · have hi : i = (fullBytes special ps).length := by omega
        refine ⟨0, List.mem_append_right _ (List.mem_singleton.mpr ?_)⟩
        rw [← hi, hzero, if_pos (by bv_omega)]
    obtain ⟨c, hc⟩ := hmem
    have hbuf : buf.toNat ≤ 0 := (hstores _ hc).1
    omega
  exact ⟨ps, hps, hsize, hlen, hend, (slips_endOf_iff hsize hend).mp hslips⟩

end

/-- A call keeps to its buffer, ends it and returns the length of the whole output if and only if
the output fits into memory and no sign with padding behind it is cut off. -/
theorem rtVsnprintf_bounded_iff (special : Bool) (string : BitVec 32 → CStr)
    (buf size : BitVec 32) (fmt : CStr) (args : Nat → BitVec 32) :
    Bounded special string buf size fmt args ↔ Fits special string buf size fmt args :=
  ⟨fits_of_bounded, bounded_of_fits⟩

/-- A call with no room at all stores its terminator. -/
theorem sizeZero_stores :
    rtVsnprintf false (fun _ => ⟨[], List.not_mem_nil⟩) 0x1000 0 ⟨[], List.not_mem_nil⟩
        (fun _ => 0) = some ([(0x1000, 0)], 0) ∧
      ¬ Bounded false (fun _ => ⟨[], List.not_mem_nil⟩) 0x1000 0 ⟨[], List.not_mem_nil⟩
        (fun _ => 0) := by
  refine ⟨?_, ?_⟩
  · rw [rtVsnprintf, format]
    decide
  · intro h
    obtain ⟨ps, -, hsize, -⟩ := fits_of_bounded h
    exact absurd hsize (by decide)

end ControlRTT.Kernel.Vsnprintf

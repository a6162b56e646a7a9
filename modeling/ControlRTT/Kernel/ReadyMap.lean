import ControlRTT.Lib.CInt
import ControlRTT.Kernel.Ffs

/-! # The ready bitmap (scheduler.c)

The priorities with ready threads, as one word, or with more than 32 priorities as 32
bytes and a word that says which of them are not zero. Each priority has its masks
worked out in advance. `Marks` says which set of priorities a bitmap stands for;
setting and clearing do to the set what their names say, and the two searches for the
first bit find its least element. -/
namespace ControlRTT.Kernel.ReadyMap
open ControlRTT.Lib.CInt ControlRTT.Kernel.Ffs

/-- The priority attributes of a thread. -/
structure PrioAttr where
  number : Nat := 0
  numberMask : BitVec 32 := 0
  highMask : BitVec 8 := 0
  deriving DecidableEq, Repr

/-- `max` is `RT_THREAD_PRIORITY_MAX`. -/
def prioAttr (max priority : Nat) : PrioAttr :=
  if 32 < max then
    { number := priority >>> 3
      numberMask := 1#32 <<< (priority >>> 3)
      highMask := 1#8 <<< (priority &&& 7) }
  else { numberMask := 1#32 <<< priority }

structure ReadyTable where
  group : BitVec 32 := 0
  table : Nat → BitVec 8 := fun _ => 0

def ReadyTable.setByte (m : ReadyTable) (number : Nat) (byte : BitVec 8) : ReadyTable :=
  { m with table := fun n => if n = number then byte else m.table n }

/-- What `rt_schedule_insert_thread` does to the bitmap. -/
def ReadyTable.set (max : Nat) (m : ReadyTable) (a : PrioAttr) : ReadyTable :=
  if 32 < max then
    { m.setByte a.number (m.table a.number ||| a.highMask) with group := m.group ||| a.numberMask }
  else { m with group := m.group ||| a.numberMask }

/-- What `rt_schedule_remove_thread` does to the bitmap, once the list is empty. -/
def ReadyTable.clear (max : Nat) (m : ReadyTable) (a : PrioAttr) : ReadyTable :=
  if 32 < max then
    { m.setByte a.number (m.table a.number &&& ~~~a.highMask) with
      group := if m.table a.number &&& ~~~a.highMask = 0 then m.group &&& ~~~a.numberMask
        else m.group }
  else { m with group := m.group &&& ~~~a.numberMask }

/-- The search of `rt_schedule`, in unsigned words. -/
def ReadyTable.highest (max : Nat) (m : ReadyTable) : Nat :=
  if 32 < max then
    usub (u32 (usub (rtFfs m.group) 1 * 8 +
      rtFfs ((m.table (usub (rtFfs m.group) 1)).setWidth 32))) 1
  else usub (rtFfs m.group) 1

/-- The bitmap stands for the priorities of `f`: the bits of the word, or the bits of the
bytes, with a bit of the word for each byte that is not zero. -/
structure Marks (max : Nat) (m : ReadyTable) (f : Nat → Bool) : Prop where
  narrow : max ≤ 32 → ∀ p < 32, m.group.getLsbD p = f p
  wide : 32 < max → ∀ p < 256, (m.table (p / 8)).getLsbD (p % 8) = f p
  group : 32 < max → ∀ n < 32, m.group.getLsbD n = true ↔ m.table n ≠ 0

theorem getLsbD_bit {w : Nat} (n : Nat) {i : Nat} (hi : i < w) :
    (1#w <<< n).getLsbD i = decide (i = n) := by
  rw [BitVec.getLsbD_shiftLeft, decide_eq_true hi, Bool.true_and, BitVec.getLsbD_one]
  by_cases hin : i = n
  · subst hin
    simp
    omega
  · simp [hin]
    omega

theorem shiftRight_three (p : Nat) : p >>> 3 = p / 8 := Nat.shiftRight_eq_div_pow p 3

theorem and_seven (p : Nat) : p &&& 7 = p % 8 := Nat.and_two_pow_sub_one_eq_mod p 3

theorem marks_empty (max : Nat) : Marks max {} fun _ => false :=
  ⟨fun _ _ _ => BitVec.getLsbD_zero, fun _ _ _ => BitVec.getLsbD_zero, fun _ n _ => by
    simp⟩

/-- A byte is zero if it has no bit. -/
theorem byte_ne_zero_iff (b : BitVec 8) : b ≠ 0 ↔ ∃ i < 8, b.getLsbD i = true := by
  refine ⟨fun h => ?_, fun ⟨i, _, hi⟩ hz => ?_⟩
  · by_contra hnot
    refine h (BitVec.eq_of_getLsbD_eq fun i hi => ?_)
    have : b.getLsbD i ≠ true := fun ht => hnot ⟨i, hi, ht⟩
    rw [Bool.eq_false_iff.mpr this]
    exact BitVec.getLsbD_zero.symm
  · rw [hz] at hi
    simp at hi

theorem Marks.set {max : Nat} {m : ReadyTable} {f : Nat → Bool} (h : Marks max m f) (p : Nat) :
    Marks max (m.set max (prioAttr max p)) fun q => f q || decide (q = p) := by
  by_cases hmax : 32 < max
  · have hattr : prioAttr max p =
        { number := p / 8, numberMask := 1#32 <<< (p / 8), highMask := 1#8 <<< (p % 8) } := by
      rw [prioAttr, if_pos hmax, shiftRight_three, and_seven]
    rw [hattr]
    unfold ReadyTable.set
    rw [if_pos hmax]
    refine ⟨fun hn => absurd hmax (by omega), fun _ q hq => ?_, fun _ n hn => ?_⟩
    · unfold ReadyTable.setByte
      by_cases hqp : q / 8 = p / 8
      · simp only [hqp, if_true, BitVec.getLsbD_or]
        rw [← hqp, h.wide hmax q hq, getLsbD_bit _ (Nat.mod_lt q (by decide))]
        congr 1
        exact decide_eq_decide.mpr (by omega)
      · simp only [if_neg hqp]
        rw [h.wide hmax q hq, decide_eq_false fun heq : q = p => hqp (congrArg (· / 8) heq),
          Bool.or_false]
    · unfold ReadyTable.setByte
      simp only [BitVec.getLsbD_or, getLsbD_bit _ hn, Bool.or_eq_true, decide_eq_true_eq]
      by_cases hnp : n = p / 8
      · simp only [hnp, or_true, if_true, true_iff]
        refine (byte_ne_zero_iff _).mpr ⟨p % 8, Nat.mod_lt p (by decide), ?_⟩
        rw [BitVec.getLsbD_or, getLsbD_bit _ (Nat.mod_lt p (by decide))]
        simp
      · simp only [hnp, or_false, if_false]
        exact h.group hmax n hn
  · have hattr : prioAttr max p = { numberMask := 1#32 <<< p } := if_neg hmax
    rw [hattr]
    unfold ReadyTable.set
    rw [if_neg hmax]
    refine ⟨fun hle q hq => ?_, fun hn => absurd hn hmax, fun hn => absurd hn hmax⟩
    rw [BitVec.getLsbD_or, getLsbD_bit p hq, h.narrow hle q hq]

theorem Marks.clear {max : Nat} {m : ReadyTable} {f : Nat → Bool} (h : Marks max m f) (p : Nat) :
    Marks max (m.clear max (prioAttr max p)) fun q => f q && !decide (q = p) := by
  by_cases hmax : 32 < max
  · have hattr : prioAttr max p =
        { number := p / 8, numberMask := 1#32 <<< (p / 8), highMask := 1#8 <<< (p % 8) } := by
      rw [prioAttr, if_pos hmax, shiftRight_three, and_seven]
    rw [hattr]
    unfold ReadyTable.clear
    rw [if_pos hmax]
    refine ⟨fun hn => absurd hmax (by omega), fun _ q hq => ?_, fun _ n hn => ?_⟩
    · unfold ReadyTable.setByte
      by_cases hqp : q / 8 = p / 8
      · simp only [hqp, if_true, BitVec.getLsbD_and, BitVec.getLsbD_not]
        have hlt := Nat.mod_lt q (show 0 < 8 by decide)
        rw [← hqp, h.wide hmax q hq, getLsbD_bit _ hlt, decide_eq_true hlt, Bool.true_and]
        congr 2
        exact decide_eq_decide.mpr (by omega)
      · simp only [if_neg hqp]
        rw [h.wide hmax q hq, decide_eq_false fun heq : q = p => hqp (congrArg (· / 8) heq),
          Bool.not_false, Bool.and_true]
    · unfold ReadyTable.setByte
      dsimp only
      by_cases hnp : n = p / 8
      · subst hnp
        rw [if_pos rfl]
        split
        · rename_i hz
          rw [BitVec.getLsbD_and, BitVec.getLsbD_not, getLsbD_bit _ hn]
          simp [hz]
        · rename_i hz
          refine ⟨fun _ => hz, fun _ => (h.group hmax _ hn).mpr fun hzero => hz ?_⟩
          rw [hzero]
          simp
      · rw [if_neg hnp, ← h.group hmax n hn]
        split
        · rw [BitVec.getLsbD_and, BitVec.getLsbD_not, getLsbD_bit _ hn]
          simp [hn, hnp]
        · rfl
  · have hattr : prioAttr max p = { numberMask := 1#32 <<< p } := if_neg hmax
    rw [hattr]
    unfold ReadyTable.clear
    rw [if_neg hmax]
    refine ⟨fun hle q hq => ?_, fun hn => absurd hn hmax, fun hn => absurd hn hmax⟩
    rw [BitVec.getLsbD_and, BitVec.getLsbD_not, getLsbD_bit p hq, h.narrow hle q hq,
      decide_eq_true hq, Bool.true_and]

theorem Marks.congr {max : Nat} {m : ReadyTable} {f g : Nat → Bool} (h : Marks max m f)
    (heq : ∀ p < 256, f p = g p) : Marks max m g where
  narrow hle p hp := (h.narrow hle p hp).trans (heq p (by omega))
  wide hlt p hp := (h.wide hlt p hp).trans (heq p hp)
  group := h.group

/-- What `__rt_ffs` returns, less one. -/
theorem usub_rtFfs {value : BitVec 32} (h : value ≠ 0) : ∃ i < 32, usub (rtFfs value) 1 = i ∧
    rtFfs value = i + 1 ∧ IsLowest value i := by
  obtain ⟨hpos, hlow⟩ := rtFfs_spec h
  have hlt : rtFfs value - 1 < 32 := by
    by_contra hge
    have := hlow.1
    rw [BitVec.getLsbD_of_ge _ _ (by omega)] at this
    cases this
  refine ⟨rtFfs value - 1, hlt, ?_, by omega, hlow⟩
  rw [usub_of_le (by omega) (by omega)]

theorem ne_zero_of_getLsbD {w : Nat} {value : BitVec w} {i : Nat} (h : value.getLsbD i = true) :
    value ≠ 0 := fun hz => by
  rw [hz] at h
  simp at h

/-- The search finds the least priority of the set. -/
theorem Marks.highest {max : Nat} {m : ReadyTable} {f : Nat → Bool} (h : Marks max m f)
    (hmax : max ≤ 256) {p : Nat} (hp : p < max) (hf : f p = true) :
    m.highest max ≤ p ∧ f (m.highest max) = true := by
  unfold ReadyTable.highest
  by_cases hwide : 32 < max
  · rw [if_pos hwide]
    have hbyte := h.wide hwide p (by omega)
    rw [hf] at hbyte
    have hgroup := (h.group hwide (p / 8) (by omega)).mpr (ne_zero_of_getLsbD hbyte)
    obtain ⟨n, hn, hsub, -, hset, hleast⟩ := usub_rtFfs (ne_zero_of_getLsbD hgroup)
    have hnp : n ≤ p / 8 := by
      by_contra hlt
      rw [hleast _ (by omega)] at hgroup
      cases hgroup
    obtain ⟨j, hj, hbit⟩ := (byte_ne_zero_iff _).mp ((h.group hwide n hn).mp hset)
    have hzero : (m.table n).setWidth 32 ≠ 0 := by
      refine ne_zero_of_getLsbD (i := j) ?_
      rw [BitVec.getLsbD_setWidth, hbit, decide_eq_true (by omega), Bool.true_and]
    obtain ⟨i, -, -, hffs, hiset, hileast⟩ := usub_rtFfs hzero
    have hi : i < 8 ∧ (m.table n).getLsbD i = true := by
      rw [BitVec.getLsbD_setWidth] at hiset
      have hbit := (Bool.and_eq_true_iff.mp hiset).2
      refine ⟨?_, hbit⟩
      by_contra hge
      rw [BitVec.getLsbD_of_ge _ _ (by omega)] at hbit
      cases hbit
    rw [hsub, hffs]
    have hval : usub (u32 (n * 8 + (i + 1))) 1 = n * 8 + i := by
      rw [u32_of_lt (by omega), usub_of_le (by omega) (by omega)]
      omega
    rw [hval]
    refine ⟨?_, ?_⟩
    · by_contra hlt
      have hpn : p / 8 = n := by omega
      rw [hpn] at hbyte
      have := hileast (p % 8) (by omega)
      rw [BitVec.getLsbD_setWidth, hbyte, decide_eq_true (by omega)] at this
      cases this
    · rw [← h.wide hwide _ (by omega), show (n * 8 + i) / 8 = n by omega,
        show (n * 8 + i) % 8 = i by omega]
      exact hi.2
  · rw [if_neg hwide]
    have hbit := h.narrow (by omega) p (by omega)
    rw [hf] at hbit
    obtain ⟨n, hn, hsub, -, hset, hleast⟩ := usub_rtFfs (ne_zero_of_getLsbD hbit)
    rw [hsub]
    refine ⟨?_, (h.narrow (by omega) n hn).symm.trans hset⟩
    by_contra hlt
    rw [hleast _ (by omega)] at hbit
    cases hbit

end ControlRTT.Kernel.ReadyMap

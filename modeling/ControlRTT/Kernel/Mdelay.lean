import ControlRTT.Drivers.WaitQueue
import ControlRTT.Kernel.Timer

/-! # Delays in milliseconds (clock.c, thread.c)

`rt_tick_from_millisecond` multiplies in an `int` before it divides (`mdelay_iff`). -/
namespace ControlRTT.Kernel.Mdelay
open ControlRTT.Lib ControlRTT.Kernel.Timer ControlRTT.Drivers.WaitQueue

section
variable {Id : Type} [DecidableEq Id]

/-- What `rt_thread_sleep` does to the timer of the thread, at a tick: it is stopped when the thread
is suspended, set, and started. Without a result the assertion of `rt_timer_start` fails. -/
def rtThreadSleep (s : Timers Id) (now : Nat) (t : Id) (tick : Nat) : Option (Timers Id) :=
  let s := (s.rtTimerStop t).1.controlSetTime t tick
  if (s.timer t).initTick < rtTickMax / 2 then some (s.rtTimerStart now t) else none

def rtThreadMdelay (s : Timers Id) (now : Nat) (t : Id) (ms : BitVec 32) : Option (Timers Id) :=
  rtThreadSleep s now t (rtTickFromMillisecond ms).toNat

end

/-- The ticks of so many milliseconds, rounded up. -/
def ticks (ms : BitVec 32) : Nat := (rtTickPerSecond.toNat * ms.toNat + 999) / 1000

/-- The number is right, and not negative, and a delay of it starts the timer of the thread. -/
structure Delays (ms : BitVec 32) : Prop where
  tick : (rtTickFromMillisecond ms).toInt = ticks ms
  starts : ∀ (s : Timers Unit) (now : Nat), ∃ s', rtThreadMdelay s now () ms = some s' ∧
    (s'.timer ()).initTick = ticks ms

section
variable {ms : BitVec 32}

theorem rtThreadSleep_eq {tick : Nat} (h : tick < rtTickMax / 2) (s : Timers Unit) (now : Nat) :
    ∃ s', rtThreadSleep s now () tick = some s' ∧ (s'.timer ()).initTick = tick := by
  have hset : (((s.rtTimerStop ()).1.controlSetTime () tick).timer ()).initTick = tick := by
    unfold Timers.controlSetTime
    rw [Timers.setTimer_self]
  unfold rtThreadSleep
  dsimp only
  rw [if_pos (hset.symm ▸ h)]
  refine ⟨_, rfl, ?_⟩
  rw [Timers.rtTimerStart_self]
  exact hset

/-- The division, of a product that may be negative. -/
theorem tick_toInt (h : ms.toNat < 2 ^ 31) : (rtTickFromMillisecond ms).toInt =
    (rtTickPerSecond * ms + 999).toInt.tdiv 1000 := by
  have hsign : ms.slt 0 = false := by
    rw [BitVec.slt_eq_decide, BitVec.toInt_eq_toNat_of_lt (by omega)]
    exact decide_eq_false (Int.not_lt.mpr (Int.natCast_nonneg _))
  unfold rtTickFromMillisecond
  rw [hsign, if_neg Bool.false_ne_true, BitVec.toInt_sdiv_of_ne_or_ne _ _ (.inr (by decide))]
  rfl

theorem product_toNat (ms : BitVec 32) : (rtTickPerSecond * ms + 999).toNat =
    (1000 * ms.toNat + 999) % 2 ^ 32 := by
  rw [BitVec.toNat_add, BitVec.toNat_mul]
  exact Nat.mod_add_mod _ _ _

/-- The number is right exactly if the product fits. -/
theorem tick_iff (h : ms.toNat < 2 ^ 31) : (rtTickFromMillisecond ms).toInt = ticks ms ↔
    rtTickPerSecond.toNat * ms.toNat + 999 < 2 ^ 31 := by
  have hticks : ticks ms = (1000 * ms.toNat + 999) / 1000 := rfl
  have hrate : rtTickPerSecond.toNat = 1000 := rfl
  have hnat := product_toNat ms
  have hcond := BitVec.toInt_eq_toNat_cond (rtTickPerSecond * ms + 999)
  rw [tick_toInt h, hticks, hrate]
  generalize rtTickPerSecond * ms + 999 = v at hnat hcond ⊢
  by_cases hfits : 1000 * ms.toNat + 999 < 2 ^ 31
  · have hv : v.toNat = 1000 * ms.toNat + 999 := by
      rw [hnat]
      exact Nat.mod_eq_of_lt (by omega)
    have hint : v.toInt = (1000 * ms.toNat + 999 : Nat) := by
      split at hcond <;> omega
    rw [hint, Int.tdiv_eq_ediv_of_nonneg (Int.natCast_nonneg _)]
    exact iff_of_true (Int.natCast_ediv _ 1000).symm hfits
  · refine iff_of_false (fun heq => ?_) hfits
    rcases Int.le_total 0 v.toInt with hpos | hneg
    · rw [Int.tdiv_eq_ediv_of_nonneg hpos] at heq
      split at hcond <;> omega
    · have hmirror : v.toInt.tdiv 1000 = -((-v.toInt) / 1000) := by
        rw [← Int.tdiv_eq_ediv_of_nonneg (Int.neg_nonneg_of_nonpos hneg), Int.neg_tdiv, Int.neg_neg]
      rw [hmirror] at heq
      omega

end

/-- From zero to the greatest `rt_int32_t` a delay is as long as it should be exactly if the product
in the conversion fits into an `int`. -/
theorem mdelay_iff {ms : BitVec 32} (h : ms.toNat ≤ 0x7fffffff) :
    Delays ms ↔ rtTickPerSecond.toNat * ms.toNat + 999 < 2 ^ 31 := by
  have hlt : ms.toNat < 2 ^ 31 := Nat.lt_succ_of_le h
  refine ⟨fun hdelays => (tick_iff hlt).mp hdelays.tick, fun hfits => ?_⟩
  have htick := (tick_iff hlt).mpr hfits
  have hsmall : ticks ms < rtTickMax / 2 := by
    have hrate : rtTickPerSecond.toNat = 1000 := rfl
    rw [hrate] at hfits
    unfold ticks rtTickMax
    rw [hrate]
    omega
  have hword : (rtTickFromMillisecond ms).toNat = ticks ms := by
    have hcond := BitVec.toInt_eq_toNat_cond (rtTickFromMillisecond ms)
    rw [htick] at hcond
    unfold rtTickMax at hsmall
    split at hcond <;> omega
  refine ⟨htick, fun s now => ?_⟩
  unfold rtThreadMdelay
  rw [hword]
  exact rtThreadSleep_eq hsmall s now

/-- A second. -/
theorem delays_one_second : Delays 1000 := (mdelay_iff (by decide)).mpr (by decide)

/-- The product for 36 minutes is negative. -/
theorem no_delay_of_36_minutes : ¬∀ ms : BitVec 32, ms.toNat ≤ 0x7fffffff → Delays ms := by
  intro h
  have htick := (h 2160000 (by decide)).tick
  exact absurd htick (by decide)

end ControlRTT.Kernel.Mdelay

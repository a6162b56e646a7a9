import ControlRTT.Lib.Parties

/-! # Condition variables

`pthread_cond_t` of `components/libc/pthreads/pthread_cond.c` is a semaphore, first in, first out.
Its threads are entries of a list; what it does to the entry of a thread that it wakes is `wake`. A
broadcast wakes all that are in the list of the semaphore, and leaves one unit
(`pthreadCondBroadcast_eq`): of those that are on their way into the list it reaches one. -/
namespace ControlRTT.Components.PthreadCond
open Lib.Parties

structure Cond where
  value : Nat := 0
  waiters : List Nat := []
  deriving DecidableEq, Repr

variable {Thread : Type}

namespace Cond

/-- `rt_sem_trytake`; `none` is `-RT_ETIMEOUT`. -/
def semTrytake (sem : Cond) : Option Cond :=
  if 0 < sem.value then some { sem with value := sem.value - 1 } else none

/-- `rt_sem_release`; the counter has 16 bits. -/
def semRelease (wake : Thread → Thread) (sem : Cond) (threads : List Thread) :
    Cond × List Thread :=
  match sem.waiters with
  | [] => ({ sem with value := (sem.value + 1) % 2 ^ 16 }, threads)
  | u :: waiters => ({ sem with waiters }, threads.modify u wake)

/-- The loop of `pthread_cond_broadcast`. -/
def broadcastLoop (wake : Thread → Thread) : Nat → Cond → List Thread → Cond × List Thread
  | 0, sem, threads => (sem, threads)
  | fuel + 1, sem, threads =>
    match sem.semTrytake with
    | some sem => sem.semRelease wake threads
    | none =>
      let (sem, threads) := sem.semRelease wake threads
      broadcastLoop wake fuel sem threads

/-- The loop ends after a round for each thread that waits, and two more. -/
def pthreadCondBroadcast (wake : Thread → Thread) (sem : Cond) (threads : List Thread) :
    Cond × List Thread :=
  broadcastLoop wake (sem.waiters.length + 2) sem threads

def pthreadCondSignal (wake : Thread → Thread) (sem : Cond) (threads : List Thread) :
    Cond × List Thread :=
  sem.semRelease wake threads

/-- Its list holds the threads that are where `waits` says, and none if there is a unit. -/
structure Holds (sem : Cond) (threads : List Thread) (waits : Thread → Bool) : Prop where
  queued : Queued sem.waiters threads waits
  empty : 0 < sem.value → sem.waiters = []
  fits : sem.value < 2 ^ 16

variable {sem : Cond} {threads : List Thread} {waits : Thread → Bool} {wake : Thread → Thread}
variable {t : Nat} {th th' : Thread}

theorem semTrytake_cases (sem : Cond) :
    (0 < sem.value ∧ sem.semTrytake = some { sem with value := sem.value - 1 }) ∨
      (sem.value = 0 ∧ sem.semTrytake = none) := by
  by_cases hvalue : 0 < sem.value
  · exact .inl ⟨hvalue, if_pos hvalue⟩
  · exact .inr ⟨Nat.eq_zero_of_not_pos hvalue, if_neg hvalue⟩

theorem Holds.same (h : sem.Holds threads waits) (ht : threads[t]? = some th)
    (hsame : waits th' = waits th) : sem.Holds (threads.set t th') waits :=
  ⟨h.queued.same ht hsame, h.empty, h.fits⟩

theorem Holds.map (h : sem.Holds threads waits) {f : Thread → Thread}
    (hf : ∀ th, waits (f th) = waits th) : sem.Holds (threads.map f) waits :=
  ⟨h.queued.map hf, h.empty, h.fits⟩

/-- `rt_sem_take` where there is a unit. -/
theorem Holds.take (h : sem.Holds threads waits) :
    Holds { sem with value := sem.value - 1 } threads waits :=
  ⟨h.queued, fun hpos => h.empty (by simp only at hpos; omega), by
    have hfits := h.fits
    simp only
    omega⟩

/-- `rt_sem_take` where there is none. -/
theorem Holds.join (h : sem.Holds threads waits) (hvalue : sem.value = 0)
    (ht : threads[t]? = some th) (hout : waits th = false) (hin : waits th' = true) :
    Holds { sem with waiters := sem.waiters ++ [t] } (threads.set t th') waits :=
  ⟨h.queued.join ht hout hin, fun hpos => absurd hvalue (Nat.pos_iff_ne_zero.mp hpos), h.fits⟩

/-- The time of a thread in the list runs out. -/
theorem Holds.leave (h : sem.Holds threads waits) (ht : threads[t]? = some th)
    (hout : waits th' = false) :
    Holds { sem with waiters := sem.waiters.erase t } (threads.set t th') waits := by
  refine ⟨h.queued.leave ht hout, fun hpos => ?_, h.fits⟩
  simp only [h.empty hpos, List.erase_nil]

theorem holds_nil (hnone : threads.countP waits = 0) : Holds {} threads waits :=
  ⟨queued_nil hnone, fun _ => rfl, Nat.two_pow_pos 16⟩

/-- A release wakes the first of the list, or leaves a unit. -/
theorem Holds.release_cases (h : sem.Holds threads waits) (wake : Thread → Thread) :
    (threads.countP waits = 0 ∧ sem.semRelease wake threads =
      ({ sem with value := (sem.value + 1) % 2 ^ 16 }, threads)) ∨
    ∃ t th waiters, sem.waiters = t :: waiters ∧ threads[t]? = some th ∧ waits th = true ∧
      sem.semRelease wake threads = ({ sem with waiters }, threads.set t (wake th)) := by
  have hqueued := h.queued
  unfold semRelease
  cases hwaiters : sem.waiters with
  | nil => exact .inl ⟨hqueued.eq_nil_iff.mp hwaiters, rfl⟩
  | cons t waiters =>
    rw [hwaiters] at hqueued
    obtain ⟨th, ht, hwaits⟩ := hqueued.head
    refine .inr ⟨t, th, waiters, rfl, ht, hwaits, ?_⟩
    dsimp only
    rw [List.modify_eq_set_getElem?, ht]
    rfl

theorem Holds.pop (h : sem.Holds threads waits) {waiters : List Nat}
    (hwaiters : sem.waiters = t :: waiters) (ht : threads[t]? = some th)
    (hout : waits th' = false) : Holds { sem with waiters } (threads.set t th') waits := by
  have hqueued := h.queued
  rw [hwaiters] at hqueued
  refine ⟨hqueued.pop ht hout, fun hpos => ?_, h.fits⟩
  cases (h.empty hpos).symm.trans hwaiters

/-- The counter of a semaphore that nobody waits for. -/
theorem Holds.release (h : sem.Holds threads waits) (hnone : threads.countP waits = 0) :
    Holds { sem with value := (sem.value + 1) % 2 ^ 16 } threads waits :=
  ⟨h.queued, fun _ => h.queued.eq_nil_iff.mpr hnone, Nat.mod_lt _ (Nat.two_pow_pos 16)⟩

/-- The last rounds of the loop. -/
theorem broadcastLoop_nil (hempty : sem.waiters = []) (hfits : sem.value < 2 ^ 16) (fuel : Nat) :
    broadcastLoop wake (fuel + 2) sem threads =
      ({ value := max 1 sem.value, waiters := [] }, threads) := by
  obtain ⟨value, waiters⟩ := sem
  obtain rfl : waiters = [] := hempty
  cases value with
  | zero => rfl
  | succ value =>
    simp only [broadcastLoop, semTrytake, semRelease, Nat.zero_lt_succ, if_true,
      Nat.add_sub_cancel, Nat.mod_eq_of_lt hfits]
    rw [Nat.max_eq_right (Nat.succ_pos value)]

theorem broadcastLoop_eq (h : sem.Holds threads waits) (hout : ∀ th, waits (wake th) = false)
    (hleave : ∀ th, waits th = false → wake th = th) {fuel : Nat}
    (hfuel : sem.waiters.length + 2 ≤ fuel) : broadcastLoop wake fuel sem threads =
      ({ value := max 1 sem.value, waiters := [] }, threads.map wake) := by
  induction fuel generalizing sem threads with
  | zero => cases hfuel
  | succ fuel ih =>
    obtain ⟨hnone, -⟩ | ⟨t, th, waiters, hwaiters, ht, hwaits, hrelease⟩ := h.release_cases wake
    · have hempty := h.queued.eq_nil_iff.mpr hnone
      have hsame : threads.map wake = threads.map id := List.map_congr_left fun th hmem =>
        hleave th (by simpa using List.countP_eq_zero.mp hnone th hmem)
      obtain ⟨rest, rfl⟩ : ∃ rest, fuel = rest + 1 := ⟨fuel - 1, by omega⟩
      rw [broadcastLoop_nil hempty h.fits, hsame, List.map_id]
    · have hvalue : sem.value = 0 := by
        by_contra hne
        cases (h.empty (Nat.pos_of_ne_zero hne)).symm.trans hwaiters
      have hlen := congrArg List.length hwaiters
      rw [List.length_cons] at hlen
      have htake : sem.semTrytake = none := if_neg (by omega)
      rw [broadcastLoop, htake, hrelease]
      dsimp only
      rw [ih (h.pop hwaiters ht (hout th)) (by simp only; omega), List.map_set,
        hleave _ (hout th)]
      obtain ⟨hlt, rfl⟩ := List.getElem?_eq_some_iff.mp ht
      rw [← List.getElem_map wake (h := by rwa [List.length_map]), List.set_getElem_self]

/-- A broadcast wakes all that wait, and leaves a unit. -/
theorem Holds.pthreadCondBroadcast_eq (h : sem.Holds threads waits)
    (hout : ∀ th, waits (wake th) = false) (hleave : ∀ th, waits th = false → wake th = th) :
    sem.pthreadCondBroadcast wake threads =
      ({ value := max 1 sem.value, waiters := [] }, threads.map wake) :=
  broadcastLoop_eq h hout hleave (Nat.le_refl _)

theorem Holds.broadcast (h : sem.Holds threads waits) (hout : ∀ th, waits (wake th) = false) :
    Holds { value := max 1 sem.value, waiters := [] } (threads.map wake) waits := by
  have hfits := h.fits
  refine ⟨queued_nil ?_, fun _ => rfl, by simp only; omega⟩
  rw [List.countP_map]
  exact List.countP_eq_zero.mpr fun th _ => by simp [hout]

end Cond

end ControlRTT.Components.PthreadCond

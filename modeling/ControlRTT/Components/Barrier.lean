import ControlRTT.Components.PthreadCond
import ControlRTT.Lib.Runs

/-! # Barriers

`components/libc/pthreads/pthread_barrier.c`, with the mutex and the condition variable of a
barrier. `pthread_barrier_wait` counts down and never up again, so a barrier serves for one round;
and its broadcast reaches one of the threads that have given the mutex back and not come to the
semaphore yet. In the first round, and where there is no more than one of those, the barrier does
what it is for (`barrier_throughout`). -/
namespace ControlRTT.Components.Barrier
open Lib.Runs Lib.Parties PthreadCond

/-- Where a thread is: in no call; before `pthread_mutex_lock`; behind it; in `pthread_cond_wait`
before `rt_sem_take`, in the list of the semaphore, and before `pthread_mutex_lock`; before
`pthread_cond_broadcast`; and before `pthread_mutex_unlock`, to return 0 or `EINVAL` behind it. -/
inductive Phase
  | idle
  | entering
  | inside
  | parked
  | queued
  | awake
  | notify
  | leaving (ok : Bool)
  deriving DecidableEq, Repr

/-- A thread, with the calls that it has made, those that have returned, and those of them that
have returned an error. -/
structure Thread where
  phase : Phase := .idle
  calls : Nat := 0
  returns : Nat := 0
  errors : Nat := 0
  deriving DecidableEq, Repr

/-- `struct pthread_barrier` and the threads. -/
structure System where
  count : Nat
  owner : Option Nat := none
  cond : Cond := {}
  threads : List Thread
  deriving DecidableEq, Repr

inductive Event
  | call (t : Nat)
  | go (t : Nat)
  deriving DecidableEq, Repr

namespace Thread

/-- What becomes of a thread that waits for the semaphore and is given a unit of it. -/
def wake (th : Thread) : Thread :=
  if th.phase = .queued then { th with phase := .awake } else th

def ret (th : Thread) (ok : Bool) : Thread :=
  { th with phase := .idle, returns := th.returns + 1, errors := th.errors + (!ok).toNat }

end Thread

namespace System

def put (s : System) (t : Nat) (th : Thread) : System :=
  { s with threads := s.threads.set t th }

/-- `pthread_mutex_lock`, which can go on when the mutex is free, and fails for its owner. Which of
those that wait gets it is left open. -/
def pthreadMutexLock (s : System) (t : Nat) (locked failed : Thread) : Option System :=
  match s.owner with
  | none => some ({ s with owner := some t }.put t locked)
  | some u => if u = t then some (s.put t failed) else none

def pthreadMutexUnlock (s : System) (t : Nat) : System :=
  { s with owner := if s.owner = some t then none else s.owner }

/-- `pthread_cond_broadcast` -/
def broadcast (s : System) : System :=
  let (cond, threads) := s.cond.pthreadCondBroadcast Thread.wake s.threads
  { s with cond, threads }

/-- The test of `count`, and `pthread_cond_wait` up to `rt_sem_take`. -/
def arrive (s : System) (t : Nat) (th : Thread) : System :=
  if s.count = 0 then s.put t { th with phase := .leaving false }
  else
    let s := { s with count := s.count - 1 }
    if s.count = 0 then s.put t { th with phase := .notify }
    else (s.pthreadMutexUnlock t).put t { th with phase := .parked }

/-- The next step of a thread; `none` if it is in no call, waits for the semaphore, or waits for
the mutex. -/
def go (s : System) (t : Nat) (th : Thread) : Option System :=
  match th.phase with
  | .idle => none
  | .entering => s.pthreadMutexLock t { th with phase := .inside } (th.ret false)
  | .inside => some (s.arrive t th)
  | .parked =>
    match s.cond.semTrytake with
    | some cond => some ({ s with cond }.put t { th with phase := .awake })
    | none =>
      some ({ s with cond := { s.cond with waiters := s.cond.waiters ++ [t] } }.put t
        { th with phase := .queued })
  | .queued => none
  | .awake =>
    s.pthreadMutexLock t { th with phase := .leaving true } { th with phase := .leaving true }
  | .notify => some (s.broadcast.put t { th with phase := .leaving true })
  | .leaving ok => some ((s.pthreadMutexUnlock t).put t (th.ret ok))

def step (s : System) : Event → Option System
  | .call t =>
    s.threads[t]?.bind fun th =>
      if th.phase = .idle then
        some (s.put t { th with phase := .entering, calls := th.calls + 1 })
      else none
  | .go t => s.threads[t]?.bind (s.go t)

/-- `pthread_barrier_init` for `n` threads. -/
def start (n : Nat) : System where
  count := n
  threads := List.replicate n {}

/-! ## What is asked of the barrier -/

/-- No thread can go on within its call. -/
def Quiescent (s : System) : Prop :=
  ∀ t, s.step (.go t) = none

structure Agrees (s : System) : Prop where
  /-- A call returns when all threads have made theirs. -/
  waits : ∀ th ∈ s.threads, ∀ other ∈ s.threads, th.returns ≤ other.calls
  ok : ∀ th ∈ s.threads, th.errors = 0
  /-- Nobody is left in a call that all have made. -/
  through : s.Quiescent → ∀ k, (∀ th ∈ s.threads, k ≤ th.calls) →
    ∀ th ∈ s.threads, th.calls = k → th.phase = .idle

end System

/-! ## The condition -/

/-- How many threads are where `p` says. -/
def tally (threads : List Thread) (p : Phase → Bool) : Nat :=
  threads.countP fun th => p th.phase

namespace Phase

def isParked : Phase → Bool
  | .parked => true
  | _ => false

def isQueued : Phase → Bool
  | .queued => true
  | _ => false

end Phase

namespace System

/-- The step of a thread does not go wrong. -/
def GoesWell (s : System) : Phase → Prop
  | .inside => s.count ≠ 0
  | .notify => tally s.threads Phase.isParked ≤ max 1 s.cond.value
  | _ => True

def Sound (s : System) : Event → Prop
  | .go t => ∀ th ∈ s.threads[t]?, s.GoesWell th.phase
  | .call _ => True

end System

/-! ## The invariant -/

namespace Phase

/-- It has the mutex. -/
def owns : Phase → Bool
  | .inside | .notify | .leaving _ => true
  | _ => false

/-- It has been counted in its call. -/
def counted : Phase → Bool
  | .idle | .entering | .inside => false
  | _ => true

/-- It does not wait for the others any more. -/
def through : Phase → Bool
  | .awake | .notify | .leaving _ => true
  | _ => false

def announces : Phase → Bool
  | .notify => true
  | _ => false

end Phase

/-- How many of its calls have been counted. -/
def Thread.counted (th : Thread) : Nat := th.returns + th.phase.counted.toNat

def arrivals (threads : List Thread) : Nat := (threads.map Thread.counted).sum

/-- What `count` says of a thread. -/
structure Thread.Fits (count : Nat) (th : Thread) : Prop where
  calls : th.calls = th.returns + (decide (th.phase ≠ .idle)).toNat
  errors : th.errors = 0
  once : th.counted ≤ 1
  ok : th.phase ≠ .leaving false
  waits : 0 < count → th.returns = 0 ∧ th.phase.through = false

structure System.Inv (s : System) : Prop where
  total : arrivals s.threads + s.count = s.threads.length
  fits : ∀ th ∈ s.threads, th.Fits s.count
  empty : 0 < s.count → s.cond.value = 0
  through : s.count = 0 → tally s.threads Phase.announces = 0 →
    tally s.threads Phase.isQueued = 0 ∧ tally s.threads Phase.isParked ≤ s.cond.value
  owned : Owned s.owner s.threads (·.phase.owns)
  holds : s.cond.Holds s.threads (·.phase.isQueued)

section
variable {threads : List Thread} {t : Nat} {th : Thread}

theorem tally_set (ht : threads[t]? = some th) (th' : Thread) (p : Phase → Bool) :
    tally (threads.set t th') p + (p th.phase).toNat = tally threads p + (p th'.phase).toNat :=
  countP_set ht th' fun th => p th.phase

theorem tally_pos (ht : threads[t]? = some th) {p : Phase → Bool} (hp : p th.phase = true) :
    0 < tally threads p :=
  countP_pos_of_get ht hp

theorem Thread.Fits.mono {count count' : Nat} (h : th.Fits count) (hle : count' ≤ count) :
    th.Fits count' :=
  ⟨h.calls, h.errors, h.once, h.ok, fun hpos => h.waits (Nat.lt_of_lt_of_le hpos hle)⟩

end

namespace System
variable {s : System} {t : Nat} {th th' : Thread} {count : Nat} {owner : Option Nat} {cond : Cond}

/-- A thread goes on. -/
theorem Inv.move (h : s.Inv) (ht : s.threads[t]? = some th)
    (hcount : th'.counted + count = th.counted + s.count) (hle : count ≤ s.count)
    (hfits : th'.Fits count) (hempty : 0 < count → cond.value = 0)
    (hthrough : count = 0 → tally (s.threads.set t th') Phase.announces = 0 →
      tally (s.threads.set t th') Phase.isQueued = 0 ∧
        tally (s.threads.set t th') Phase.isParked ≤ cond.value)
    (howned : Owned owner (s.threads.set t th') (·.phase.owns))
    (hholds : cond.Holds (s.threads.set t th') (·.phase.isQueued)) :
    Inv ({ s with count, owner, cond }.put t th') where
  total := by
    have hsum : arrivals (s.threads.set t th') + th.counted = arrivals s.threads + th'.counted :=
      sum_set ht th' Thread.counted
    have htotal := h.total
    change arrivals (s.threads.set t th') + count = (s.threads.set t th').length
    rw [List.length_set]
    omega
  fits := forall_mem_set (fun th hmem => (h.fits th hmem).mono hle) hfits
  empty := hempty
  through := hthrough
  owned := howned
  holds := hholds

/-- What stays as it is where a thread does not come to the semaphore or leave it. -/
theorem Inv.through_set (h : s.Inv) (ht : s.threads[t]? = some th)
    (hannounces : th'.phase.announces = th.phase.announces)
    (hqueued : th'.phase.isQueued = th.phase.isQueued)
    (hparked : th'.phase.isParked = th.phase.isParked) :
    s.count = 0 → tally (s.threads.set t th') Phase.announces = 0 →
      tally (s.threads.set t th') Phase.isQueued = 0 ∧
        tally (s.threads.set t th') Phase.isParked ≤ s.cond.value := by
  have hsame : ∀ p : Phase → Bool, p th'.phase = p th.phase →
      tally (s.threads.set t th') p = tally s.threads p := by
    intro p hp
    have hset := tally_set ht th' p
    rw [hp] at hset
    exact Nat.add_right_cancel hset
  rw [hsame _ hannounces, hsame _ hqueued, hsame _ hparked]
  exact h.through

/-- A thread goes on within its call, and `count` stays. -/
theorem Inv.on (h : s.Inv) (ht : s.threads[t]? = some th) {p q : Phase} (hphase : th.phase = p)
    (hcounted : q.counted = p.counted) (hp : p ≠ .idle) (hq : q ≠ .idle)
    (hok : q ≠ .leaving false) (hlate : 0 < s.count → q.through = false)
    (hempty : 0 < s.count → cond.value = 0)
    (hthrough : s.count = 0 →
      tally (s.threads.set t { th with phase := q }) Phase.announces = 0 →
      tally (s.threads.set t { th with phase := q }) Phase.isQueued = 0 ∧
        tally (s.threads.set t { th with phase := q }) Phase.isParked ≤ cond.value)
    (howned : Owned owner (s.threads.set t { th with phase := q }) (·.phase.owns))
    (hholds : cond.Holds (s.threads.set t { th with phase := q }) (·.phase.isQueued)) :
    Inv ({ s with owner, cond }.put t { th with phase := q }) := by
  subst hphase
  have hfits := h.fits th (List.mem_of_getElem? ht)
  have hsame : Thread.counted { th with phase := q } = th.counted := by
    unfold Thread.counted
    rw [hcounted]
  refine h.move ht (by rw [hsame]) (Nat.le_refl _) ⟨?_, hfits.errors, ?_, hok, ?_⟩ hempty hthrough
    howned hholds
  · have hcalls := hfits.calls
    simp only [hp, hq, ne_eq, not_false_eq_true, decide_true, Bool.toNat_true] at hcalls ⊢
    exact hcalls
  · rw [hsame]
    exact hfits.once
  · intro hpos
    exact ⟨(hfits.waits hpos).1, hlate hpos⟩

/-- `pthread_mutex_lock`, by a thread that does not have the mutex. -/
theorem Inv.mutexLock (h : s.Inv) (ht : s.threads[t]? = some th) {p q : Phase} {failed : Thread}
    {s' : System} (hphase : th.phase = p)
    (hstep : s.pthreadMutexLock t { th with phase := q } failed = some s')
    (hcounted : q.counted = p.counted) (hp : p ≠ .idle) (hok : q ≠ .leaving false)
    (hlate : 0 < s.count → q.through = false) (hnot : p.owns = false) (howns : q.owns = true)
    (hannounces : q.announces = p.announces) (hqueued : q.isQueued = p.isQueued)
    (hparked : q.isParked = p.isParked) : s'.Inv := by
  subst hphase
  unfold pthreadMutexLock at hstep
  cases howner : s.owner with
  | none =>
    rw [howner] at hstep
    obtain rfl := Option.some.inj hstep
    have howned := h.owned
    rw [howner] at howned
    refine h.on ht rfl hcounted hp (fun hidle => ?_) hok hlate h.empty
      (h.through_set ht hannounces hqueued hparked) (howned.take ht howns) (h.holds.same ht hqueued)
    rw [hidle] at howns
    cases howns
  | some u =>
    rw [howner] at hstep
    by_cases hu : u = t
    · subst hu
      obtain ⟨a, ha, hown⟩ := (h.owned u).mp howner
      rw [ht] at ha
      obtain rfl := Option.some.inj ha
      cases hnot.symm.trans hown
    · dsimp only at hstep
      rw [if_neg hu] at hstep
      cases hstep

/-- A thread is counted; the last one is to let the others on. -/
theorem Inv.arrive (h : s.Inv) (ht : s.threads[t]? = some th) (hphase : th.phase = .inside)
    (hgoes : s.count ≠ 0) : (s.arrive t th).Inv := by
  have hfits := h.fits th (List.mem_of_getElem? ht)
  have hcalls := hfits.calls
  have hwaits := hfits.waits (Nat.pos_of_ne_zero hgoes)
  have howner := h.owned.eq_some ht (by rw [hphase]; rfl)
  have howned := h.owned
  rw [howner] at howned
  rw [hphase] at hcalls
  unfold System.arrive
  rw [if_neg hgoes]
  dsimp only
  split
  · rename_i hzero
    refine h.move ht ?_ (Nat.sub_le _ _) ⟨?_, hfits.errors, ?_, ?_, ?_⟩ ?_ (fun _ hnone => ?_)
      (h.owned.same ht ?_) (h.holds.same ht ?_)
    · simp only [Thread.counted, hphase, Phase.counted, Bool.toNat_false, Bool.toNat_true]
      omega
    · exact hcalls
    · simp only [Thread.counted, Phase.counted, Bool.toNat_true]
      omega
    · intro hne
      cases hne
    · intro hpos
      omega
    · intro hpos
      omega
    · have hset := tally_set ht { th with phase := .notify } Phase.announces
      rw [hphase] at hset
      simp only [Phase.announces, Bool.toNat_false, Bool.toNat_true] at hset
      omega
    · rw [hphase]
      rfl
    · rw [hphase]
      rfl
  · rename_i hne
    unfold pthreadMutexUnlock
    rw [if_pos howner]
    refine h.move ht ?_ (Nat.sub_le _ _) ⟨?_, hfits.errors, ?_, ?_, ?_⟩ (fun _ => ?_)
      (fun hzero => absurd hzero hne) (howned.give ht rfl) (h.holds.same ht ?_)
    · simp only [Thread.counted, hphase, Phase.counted, Bool.toNat_false, Bool.toNat_true]
      omega
    · exact hcalls
    · simp only [Thread.counted, Phase.counted, Bool.toNat_true]
      omega
    · intro hne
      cases hne
    · intro _
      exact ⟨hwaits.1, rfl⟩
    · exact h.empty (Nat.pos_of_ne_zero hgoes)
    · rw [hphase]
      rfl

/-- `rt_sem_take`; there is a unit only when all have been counted. -/
theorem Inv.semTake (h : s.Inv) (ht : s.threads[t]? = some th) (hphase : th.phase = .parked)
    (hvalue : 0 < s.cond.value) :
    Inv ({ s with cond := { s.cond with value := s.cond.value - 1 } }.put t
      { th with phase := .awake }) := by
  have hlate : 0 < s.count → False := fun hpos => by
    have hempty := h.empty hpos
    omega
  refine h.on ht hphase rfl (by simp) (by simp) (by simp) (fun hpos => (hlate hpos).elim)
    (fun hpos => (hlate hpos).elim) (fun hzero hnone => ?_) (h.owned.same ht (by rw [hphase]; rfl))
    (h.holds.take.same ht (by rw [hphase]; rfl))
  have hannounces := tally_set ht { th with phase := .awake } Phase.announces
  have hqueued := tally_set ht { th with phase := .awake } Phase.isQueued
  have hparked := tally_set ht { th with phase := .awake } Phase.isParked
  have hthrough := h.through hzero
  simp only [hphase, Phase.announces, Phase.isQueued, Phase.isParked, Bool.toNat_false,
    Bool.toNat_true] at hannounces hqueued hparked
  simp only
  omega

theorem Inv.semJoin (h : s.Inv) (ht : s.threads[t]? = some th) (hphase : th.phase = .parked)
    (hvalue : s.cond.value = 0) :
    Inv ({ s with cond := { s.cond with waiters := s.cond.waiters ++ [t] } }.put t
      { th with phase := .queued }) := by
  refine h.on ht hphase rfl (by simp) (by simp) (by simp) (fun _ => rfl) (fun _ => hvalue)
    (fun hzero hnone => ?_) (h.owned.same ht (by rw [hphase]; rfl))
    (h.holds.join hvalue ht (by rw [hphase]; rfl) rfl)
  have hannounces := tally_set ht { th with phase := .queued } Phase.announces
  have hpos := tally_pos (p := Phase.isParked) ht (by rw [hphase]; rfl)
  have hthrough := h.through hzero
  simp only [hphase, Phase.announces, Bool.toNat_false] at hannounces
  omega

theorem wake_of_queued (hphase : th.phase = .queued) : th.wake = { th with phase := .awake } :=
  if_pos hphase

theorem wake_of_not (hnot : th.phase.isQueued = false) : th.wake = th := by
  refine if_neg fun hphase => ?_
  rw [hphase] at hnot
  cases hnot

theorem wake_cases (th : Thread) :
    (th.phase = .queued ∧ th.wake = { th with phase := .awake }) ∨
      (th.phase.isQueued = false ∧ th.wake = th) := by
  by_cases hphase : th.phase = .queued
  · exact .inl ⟨hphase, wake_of_queued hphase⟩
  · have hnot : th.phase.isQueued = false := by
      cases h : th.phase <;> simp_all [Phase.isQueued]
    exact .inr ⟨hnot, wake_of_not hnot⟩

theorem isQueued_wake (th : Thread) : th.wake.phase.isQueued = false := by
  obtain ⟨-, hwake⟩ | ⟨hnot, hwake⟩ := wake_cases th
  · rw [hwake]
    rfl
  · rw [hwake]
    exact hnot

/-- What is the same for a thread in the list and one that has left it. -/
theorem wake_same {p : Phase → Bool} (hp : p .awake = p .queued) (th : Thread) :
    p th.wake.phase = p th.phase := by
  obtain ⟨hphase, hwake⟩ | ⟨-, hwake⟩ := wake_cases th
  · rw [hwake, hphase]
    exact hp
  · rw [hwake]

theorem tally_wake (threads : List Thread) {p : Phase → Bool} (hp : p .awake = p .queued) :
    tally (threads.map Thread.wake) p = tally threads p := by
  unfold tally
  rw [List.countP_map]
  congr 1
  funext th
  exact wake_same hp th

theorem counted_wake (th : Thread) : th.wake.counted = th.counted := by
  obtain ⟨hphase, hwake⟩ | ⟨-, hwake⟩ := wake_cases th
  · rw [hwake]
    unfold Thread.counted
    rw [hphase]
    rfl
  · rw [hwake]

/-- All that have been counted may go on. -/
theorem fits_wake (h : th.Fits 0) : th.wake.Fits 0 := by
  obtain ⟨hphase, hwake⟩ | ⟨-, hwake⟩ := wake_cases th
  · have hcounted := counted_wake th
    rw [hwake] at hcounted ⊢
    have hcalls := h.calls
    rw [hphase] at hcalls
    refine ⟨hcalls, h.errors, ?_, fun hne => (by cases hne), fun hpos => (by cases hpos)⟩
    rw [hcounted]
    exact h.once
  · rw [hwake]
    exact h

theorem Inv.broadcast_eq (h : s.Inv) : s.broadcast = { s with
    cond := { value := max 1 s.cond.value, waiters := [] }
    threads := s.threads.map Thread.wake } := by
  unfold System.broadcast
  rw [h.holds.pthreadCondBroadcast_eq isQueued_wake fun _ => wake_of_not]

/-- The broadcast, when all have been counted. -/
theorem Inv.broadcast (h : s.Inv) (hzero : s.count = 0)
    (hgoes : tally s.threads Phase.isParked ≤ max 1 s.cond.value) : s.broadcast.Inv := by
  rw [h.broadcast_eq]
  refine ⟨?_, fun th' hmem => ?_, fun hpos => ?_, fun _ _ => ⟨?_, ?_⟩,
    h.owned.map (wake_same rfl), h.holds.broadcast isQueued_wake⟩
  · have htotal := h.total
    have hsame : arrivals (s.threads.map Thread.wake) = arrivals s.threads := by
      unfold arrivals
      rw [List.map_map]
      exact congrArg List.sum (List.map_congr_left fun th _ => counted_wake th)
    dsimp only
    rw [hsame, List.length_map]
    exact htotal
  · obtain ⟨th, hth, rfl⟩ := List.mem_map.mp hmem
    have hfits := h.fits th hth
    dsimp only at hmem ⊢
    rw [hzero] at hfits ⊢
    exact fits_wake hfits
  · dsimp only at hpos
    omega
  · refine List.countP_eq_zero.mpr fun th' hmem => ?_
    obtain ⟨th, -, rfl⟩ := List.mem_map.mp hmem
    simp [isQueued_wake]
  · dsimp only
    rw [tally_wake _ rfl]
    exact hgoes

theorem Inv.count_of_through (h : s.Inv) (ht : s.threads[t]? = some th)
    (hthrough : th.phase.through = true) : s.count = 0 := by
  by_contra hne
  have hwaits := (h.fits th (List.mem_of_getElem? ht)).waits (Nat.pos_of_ne_zero hne)
  cases hthrough.symm.trans hwaits.2

theorem Inv.notify (h : s.Inv) (ht : s.threads[t]? = some th) (hphase : th.phase = .notify)
    (hgoes : tally s.threads Phase.isParked ≤ max 1 s.cond.value) :
    (s.broadcast.put t { th with phase := .leaving true }).Inv := by
  have hzero := h.count_of_through ht (by rw [hphase]; rfl)
  have hinv := h.broadcast hzero hgoes
  have hcount : s.broadcast.count = 0 := by rw [h.broadcast_eq]; exact hzero
  have ht' : s.broadcast.threads[t]? = some th := by
    rw [h.broadcast_eq]
    dsimp only
    rw [List.getElem?_map, ht, Option.map_some, wake_of_not (by rw [hphase]; rfl)]
  have hall : tally s.broadcast.threads Phase.isQueued = 0 ∧
      tally s.broadcast.threads Phase.isParked ≤ s.broadcast.cond.value := by
    rw [h.broadcast_eq]
    refine ⟨List.countP_eq_zero.mpr fun th' hmem => ?_, ?_⟩
    · obtain ⟨th, -, rfl⟩ := List.mem_map.mp hmem
      simp [isQueued_wake]
    · dsimp only
      rw [tally_wake _ rfl]
      exact hgoes
  refine hinv.on ht' hphase rfl (by simp) (by simp) (by simp) (fun hpos => ?_) hinv.empty
    (fun _ _ => ?_) (hinv.owned.same ht' (by rw [hphase]; rfl))
    (hinv.holds.same ht' (by rw [hphase]; rfl))
  · omega
  · have hqueued := tally_set ht' { th with phase := .leaving true } Phase.isQueued
    have hparked := tally_set ht' { th with phase := .leaving true } Phase.isParked
    rw [hphase] at hqueued hparked
    rw [Nat.add_right_cancel hqueued, Nat.add_right_cancel hparked]
    exact hall

/-- A thread returns; it has been counted once. -/
theorem Inv.leaving (h : s.Inv) (ht : s.threads[t]? = some th) {ok : Bool}
    (hphase : th.phase = .leaving ok) : ((s.pthreadMutexUnlock t).put t (th.ret ok)).Inv := by
  have hfits := h.fits th (List.mem_of_getElem? ht)
  have hzero := h.count_of_through ht (by rw [hphase]; rfl)
  have howner := h.owned.eq_some ht (by rw [hphase]; rfl)
  have howned := h.owned
  rw [howner] at howned
  obtain rfl : ok = true := by
    cases ok
    · exact absurd hphase hfits.ok
    · rfl
  have hsame : (th.ret true).counted = th.counted := by
    simp [Thread.counted, Thread.ret, hphase, Phase.counted]
  unfold pthreadMutexUnlock
  rw [if_pos howner]
  refine h.move ht (by rw [hsame]) (Nat.le_refl _) ⟨?_, ?_, ?_, ?_, ?_⟩ h.empty
    (h.through_set ht ?_ ?_ ?_) (howned.give ht rfl) (h.holds.same ht ?_)
  · have hcalls := hfits.calls
    rw [hphase] at hcalls
    exact hcalls
  · exact hfits.errors
  · rw [hsame]
    exact hfits.once
  · intro hne
    cases hne
  · intro hpos
    omega
  all_goals
    rw [hphase]
    rfl

theorem Inv.go (h : s.Inv) (ht : s.threads[t]? = some th) (hgoes : s.GoesWell th.phase)
    {s' : System} (hstep : s.go t th = some s') : s'.Inv := by
  unfold System.go at hstep
  split at hstep
  · cases hstep
  · rename_i hphase
    exact h.mutexLock ht hphase hstep rfl (by simp) (by simp) (fun _ => rfl) rfl rfl rfl rfl rfl
  · rename_i hphase
    obtain rfl := Option.some.inj hstep
    rw [hphase] at hgoes
    exact h.arrive ht hphase hgoes
  · rename_i hphase
    obtain ⟨hvalue, htake⟩ | ⟨hvalue, htake⟩ := s.cond.semTrytake_cases
    · rw [htake] at hstep
      obtain rfl := Option.some.inj hstep
      exact h.semTake ht hphase hvalue
    · rw [htake] at hstep
      obtain rfl := Option.some.inj hstep
      exact h.semJoin ht hphase hvalue
  · cases hstep
  · rename_i hphase
    have hzero := h.count_of_through ht (by rw [hphase]; rfl)
    exact h.mutexLock ht hphase hstep rfl (by simp) (by simp) (fun hpos => by omega) rfl rfl rfl
      rfl rfl
  · rename_i hphase
    obtain rfl := Option.some.inj hstep
    rw [hphase] at hgoes
    exact h.notify ht hphase hgoes
  · rename_i ok hphase
    obtain rfl := Option.some.inj hstep
    exact h.leaving ht hphase

theorem Inv.call (h : s.Inv) (ht : s.threads[t]? = some th) (hphase : th.phase = .idle) :
    (s.put t { th with phase := .entering, calls := th.calls + 1 }).Inv := by
  have hfits := h.fits th (List.mem_of_getElem? ht)
  have hsame : Thread.counted { th with phase := .entering, calls := th.calls + 1 } =
      th.counted := by
    simp [Thread.counted, hphase, Phase.counted]
  refine h.move ht (by rw [hsame]) (Nat.le_refl _) ⟨?_, hfits.errors, ?_, ?_, ?_⟩ h.empty
    (h.through_set ht ?_ ?_ ?_) (h.owned.same ht ?_) (h.holds.same ht ?_)
  · have hcalls := hfits.calls
    rw [hphase] at hcalls
    simpa using hcalls
  · rw [hsame]
    exact hfits.once
  · intro hne
    cases hne
  · intro hpos
    exact ⟨(hfits.waits hpos).1, rfl⟩
  all_goals
    rw [hphase]
    rfl

theorem Inv.step (h : s.Inv) {e : Event} (hsound : s.Sound e) {s' : System}
    (hstep : s.step e = some s') : s'.Inv := by
  cases e with
  | call t =>
    obtain ⟨th, ht, hcall⟩ := Option.bind_eq_some_iff.mp hstep
    split at hcall
    · rename_i hphase
      obtain rfl := Option.some.inj hcall
      exact h.call ht hphase
    · cases hcall
  | go t =>
    obtain ⟨th, ht, hgo⟩ := Option.bind_eq_some_iff.mp hstep
    exact h.go ht (hsound th ht) hgo

theorem inv_start (n : Nat) : (start n).Inv := by
  have hidle : ∀ th ∈ List.replicate n ({} : Thread), th = {} := fun th => List.eq_of_mem_replicate
  have hnone : ∀ p : Phase → Bool, p .idle = false → tally (List.replicate n {}) p = 0 := by
    intro p hp
    refine List.countP_eq_zero.mpr fun th hmem => ?_
    rw [hidle th hmem]
    simp [hp]
  refine ⟨?_, fun th hmem => ?_, fun _ => rfl, fun _ _ => ⟨hnone _ rfl, ?_⟩, fun t => ?_,
    Cond.holds_nil (hnone _ rfl)⟩
  · simp [start, arrivals, Thread.counted, Phase.counted]
  · rw [hidle th hmem]
    exact ⟨rfl, rfl, Nat.zero_le 1, by simp, fun _ => ⟨rfl, rfl⟩⟩
  · exact Nat.le_of_eq (hnone _ rfl)
  · refine ⟨fun howner => (by cases howner), ?_⟩
    rintro ⟨th, ht, hown⟩
    rw [hidle th (List.mem_of_getElem? ht)] at hown
    cases hown

/-! ## Where nobody can go on -/

theorem owner_of_pthreadMutexLock {locked failed : Thread}
    (hlock : s.pthreadMutexLock t locked failed = none) : s.owner ≠ none := by
  intro howner
  unfold pthreadMutexLock at hlock
  rw [howner] at hlock
  cases hlock

/-- A thread that cannot go on is in no call, is in the list of the semaphore, or waits for the
mutex. -/
theorem phase_of_go_eq_none (hgo : s.go t th = none) :
    th.phase = .idle ∨ th.phase = .queued ∨ (th.phase.owns = false ∧ s.owner ≠ none) := by
  unfold System.go at hgo
  split at hgo
  · rename_i hphase
    exact .inl hphase
  · rename_i hphase
    exact .inr (.inr ⟨by rw [hphase]; rfl, owner_of_pthreadMutexLock hgo⟩)
  · cases hgo
  · split at hgo <;> cases hgo
  · rename_i hphase
    exact .inr (.inl hphase)
  · rename_i hphase
    exact .inr (.inr ⟨by rw [hphase]; rfl, owner_of_pthreadMutexLock hgo⟩)
  · cases hgo
  · cases hgo

theorem Quiescent.go (hq : s.Quiescent) (ht : s.threads[t]? = some th) : s.go t th = none := by
  have hnone : s.threads[t]?.bind (s.go t) = none := hq t
  rwa [ht] at hnone

/-- Who has the mutex can go on, so nobody has it. -/
theorem Inv.owner_of_quiescent (h : s.Inv) (hq : s.Quiescent) : s.owner = none := by
  cases howner : s.owner with
  | none => rfl
  | some u =>
    obtain ⟨a, ha, hown⟩ := (h.owned u).mp howner
    obtain hidle | hqueued | ⟨hnot, -⟩ := phase_of_go_eq_none (hq.go ha)
    · simp [hidle, Phase.owns] at hown
    · simp [hqueued, Phase.owns] at hown
    · cases hnot.symm.trans hown

theorem Inv.phase_of_quiescent (h : s.Inv) (hq : s.Quiescent) (hmem : th ∈ s.threads) :
    th.phase = .idle ∨ th.phase = .queued := by
  obtain ⟨t, ht⟩ := List.mem_iff_getElem?.mp hmem
  obtain hidle | hqueued | ⟨-, howner⟩ := phase_of_go_eq_none (hq.go ht)
  · exact .inl hidle
  · exact .inr hqueued
  · exact absurd (h.owner_of_quiescent hq) howner

/-- When `count` is 0, every thread has been counted once. -/
theorem Inv.counted_of_zero (h : s.Inv) (hzero : s.count = 0) :
    ∀ th ∈ s.threads, th.counted = 1 := by
  refine eq_one_of_length_le_sum (fun th hmem => (h.fits th hmem).once) ?_
  have htotal := h.total
  rw [hzero] at htotal
  exact Nat.le_of_eq htotal.symm

theorem counted_le_calls (h : th.Fits count) : th.counted ≤ th.calls := by
  rw [h.calls]
  unfold Thread.counted
  cases th.phase <;> simp [Phase.counted]

theorem Inv.agrees (h : s.Inv) : s.Agrees where
  waits := fun th hmem other hother => by
    by_cases hzero : s.count = 0
    · have hone := h.counted_of_zero hzero other hother
      have hle := counted_le_calls (h.fits other hother)
      have hreturns : th.returns ≤ th.counted := Nat.le_add_right _ _
      have honce := (h.fits th hmem).once
      omega
    · have hnone := ((h.fits th hmem).waits (Nat.pos_of_ne_zero hzero)).1
      omega
  ok := fun th hmem => (h.fits th hmem).errors
  through := fun hq k hall th hmem hk => by
    rcases h.phase_of_quiescent hq hmem with hidle | hqueued
    · exact hidle
    · obtain ⟨t, ht⟩ := List.mem_iff_getElem?.mp hmem
      have hpos := tally_pos (p := Phase.isQueued) ht (by rw [hqueued]; rfl)
      have hnone : tally s.threads Phase.announces = 0 := by
        refine List.countP_eq_zero.mpr fun th hmem => ?_
        rcases h.phase_of_quiescent hq hmem with hphase | hphase <;> simp [hphase, Phase.announces]
      have hzero : s.count ≠ 0 := fun hzero => by
        have hthrough := h.through hzero hnone
        omega
      -- somebody has not been counted, and is in no call
      have htotal := h.total
      obtain ⟨other, hother, huncounted⟩ := exists_eq_zero_of_sum_lt
        (show arrivals s.threads < s.threads.length by omega)
      have hcalls := (h.fits other hother).calls
      have hcallsTh := (h.fits th hmem).calls
      have hle := hall other hother
      rcases h.phase_of_quiescent hq hother with hphase | hphase
      · simp only [Thread.counted, hphase, Phase.counted, Bool.toNat_false] at huncounted
        simp only [hphase, ne_eq, not_true_eq_false, decide_false, Bool.toNat_false] at hcalls
        simp only [hqueued, ne_eq, reduceCtorEq, not_false_eq_true, decide_true, Bool.toNat_true]
          at hcallsTh
        omega
      · simp [Thread.counted, hphase, Phase.counted] at huncounted

end System

/-- Where no step goes wrong, the barrier does what is asked of it. -/
theorem barrier_throughout (n : Nat) (es : List Event)
    (h : Along System.step System.Sound (System.start n) es) :
    Throughout System.step System.Agrees (System.start n) es :=
  throughout_of_along (fun _ => System.Inv.agrees)
    (fun _ _ _ hinv hsound hstep => hinv.step hsound hstep) (System.inv_start n) h

instance (s : System) : DecidablePred s.GoesWell
  | .inside => inferInstanceAs (Decidable (_ ≠ _))
  | .notify => inferInstanceAs (Decidable (_ ≤ _))
  | .idle | .entering | .parked | .queued | .awake | .leaving _ => isTrue trivial

instance (s : System) : DecidablePred s.Sound
  | .call _ => isTrue trivial
  | .go t => inferInstanceAs (Decidable (∀ th ∈ s.threads[t]?, s.GoesWell th.phase))

/-- A round of two threads. -/
def round : List Event :=
  [.call 0, .go 0, .go 0, .go 0, .call 1, .go 1, .go 1, .go 1, .go 1, .go 0, .go 0]

theorem barrier_throughout_round :
    (run System.step (System.start 2) round).map (·.threads) =
        some [⟨.idle, 1, 1, 0⟩, ⟨.idle, 1, 1, 0⟩] ∧
      Throughout System.step System.Agrees (System.start 2) round :=
  ⟨by decide +kernel, barrier_throughout 2 round (by decide +kernel)⟩

/-- The second round of one thread. -/
theorem second_round_fails : ¬ Throughout System.step System.Agrees (System.start 1)
    [.call 0, .go 0, .go 0, .go 0, .go 0, .call 0, .go 0, .go 0, .go 0] := by
  intro h
  obtain ⟨s, hrun, hthreads⟩ : ∃ s, run System.step (System.start 1)
      [.call 0, .go 0, .go 0, .go 0, .go 0, .call 0, .go 0, .go 0, .go 0] = some s ∧
        s.threads = [⟨.idle, 2, 2, 1⟩] := ⟨_, rfl, rfl⟩
  have hok := (h.last hrun).ok ⟨.idle, 2, 2, 1⟩ (by rw [hthreads]; exact List.mem_cons_self)
  cases hok

end ControlRTT.Components.Barrier

import ControlRTT.Drivers.WorkQueue
import ControlRTT.Kernel.Semaphore

/-! # Work completion

`components/drivers/src/workqueue.c`: threads that cancel the current work wait on the semaphore
of the queue, and `_workqueue_work_completion` releases it until it can take it itself. The value
is 0 between the calls, so each waiting thread is given a unit and the last unit is taken back
(`completes_throughout`). The scheduler is locked meanwhile: a completion is one step. -/
namespace ControlRTT.Drivers.WorkCompletion
open Lib.Runs Kernel.Thread Kernel.Semaphore

variable {Thread Work : Type} [DecidableEq Thread] [DecidableEq Work]

/-- `_workqueue_work_completion` in the thread of the queue, `fuel` times through its loop. -/
def workqueueWorkCompletion (worker : Thread) :
    (fuel : Nat) → RtSemaphore Thread → Option (RtSemaphore Thread × Err)
  | 0, _ => none
  | fuel + 1, sem =>
    match rtSemTrytake sem worker with
    | (sem, some .etimeout) => workqueueWorkCompletion worker fuel (rtSemRelease sem)
    | (sem, some .eok) => some (sem, .eok)
    | (sem, _) => some (sem, .error)

/-- The queue with its semaphore; `ack` is from when the current work is cleaned up to the end of
the completion. -/
structure RtWorkqueue (Thread Work : Type) where
  queue : WorkQueue.RtWorkqueue Work := {}
  sem : RtSemaphore Thread
  ack : Bool := false

def rtWorkqueueCreate (priority : Thread → Nat) : RtWorkqueue Thread Work where
  sem := rtSemInit 0 .fifo (Waiters.idle priority)

/-- `rt_workqueue_cancel_work_sync` up to its return, or to the `rt_schedule` of `rt_sem_take`. -/
def rtWorkqueueCancelWorkSync (s : RtWorkqueue Thread Work) (thread : Thread) (work : Work) :
    RtWorkqueue Thread Work :=
  if s.queue.workCurrent = some work then { s with sem := (rtSemTake s.sem thread (-1)).1 }
  else { s with queue := (s.queue.rtWorkqueueCancelWorkSync work).1 }

inductive Event (Thread Work : Type) where
  /-- What does not use the semaphore. -/
  | queue (e : WorkQueue.Event Work)
  | cancelWorkSync (thread : Thread) (work : Work)
  | complete (fuel : Nat)
  /-- A thread that has waited returns from `rt_sem_take`. -/
  | run (thread : Thread)

/-- The thread of the queue can go on with its loop. -/
def Looping (worker : Thread) (s : RtWorkqueue Thread Work) : Prop :=
  s.sem.waiters.Running worker ∧ s.ack = false

instance (worker : Thread) (s : RtWorkqueue Thread Work) : Decidable (Looping worker s) :=
  inferInstanceAs (Decidable (_ ∧ _))

/-- Who may do what is done with the queue: only the thread of the queue goes on with its loop, and
a cancellation that may wait is an event of its own. -/
def Allowed (worker : Thread) (s : RtWorkqueue Thread Work) : WorkQueue.Event Work → Bool
  | .test | .suspend | .take | .finish => Looping worker s
  | .cancelWorkSync _ => false
  | _ => true

def step (worker : Thread) (s : RtWorkqueue Thread Work) :
    Event Thread Work → Option (RtWorkqueue Thread Work)
  | .queue e =>
    if Allowed worker s e then
      (WorkQueue.step { queue := s.queue } e).map fun o =>
        { s with queue := o.queue, ack := if e matches .finish then true else s.ack }
    else none
  | .cancelWorkSync thread work =>
    if s.sem.waiters.Running thread then some (rtWorkqueueCancelWorkSync s thread work) else none
  | .complete fuel =>
    if s.sem.waiters.Running worker ∧ s.ack = true then
      (workqueueWorkCompletion worker fuel s.sem).map fun r => { s with sem := r.1, ack := false }
    else none
  | .run thread =>
    if thread ∈ s.sem.waiters.resumed then
      some { s with sem := (rtSemTakeEnd s.sem thread).1 }
    else none

/-- A completion returns after two rounds more than threads wait. Each of these has been woken
with a unit of its own, and the semaphore is as it was initialised. -/
def Completes (worker : Thread) (queue : RtWorkqueue Thread Work) : Prop :=
  ∀ fuel, queue.sem.waiters.suspendThread.length + 2 ≤ fuel →
    ∃ sem, workqueueWorkCompletion worker fuel queue.sem = some (sem, .eok) ∧ sem.value = 0 ∧
      sem.waiters.suspendThread = [] ∧
      sem.waiters.resumed = queue.sem.waiters.resumed ++ queue.sem.waiters.suspendThread ∧
      sem.waiters.handedOver = queue.sem.waiters.handedOver ++ queue.sem.waiters.suspendThread

/-! ## One completion -/

section
variable {sem : RtSemaphore Thread} {worker : Thread} {queue queue' : RtWorkqueue Thread Work}

theorem rtSemTrytake_zero (h : sem.value = 0) :
    rtSemTrytake sem worker = (sem, some .etimeout) := by
  unfold rtSemTrytake rtSemTake
  rw [h]
  rfl

theorem rtSemTrytake_one (h : sem.value = 1) :
    rtSemTrytake sem worker = ({ sem with value := 0 }, some .eok) := by
  unfold rtSemTrytake rtSemTake
  rw [h]
  rfl

/-- A round that finds no unit gives one. -/
theorem workCompletion_zero (h : sem.value = 0) (fuel : Nat) :
    workqueueWorkCompletion worker (fuel + 1) sem =
      workqueueWorkCompletion worker fuel (rtSemRelease sem) := by
  rw [workqueueWorkCompletion, rtSemTrytake_zero h]

theorem workCompletion_one (h : sem.value = 1) (fuel : Nat) :
    workqueueWorkCompletion worker (fuel + 1) sem = some ({ sem with value := 0 }, .eok) := by
  rw [workqueueWorkCompletion, rtSemTrytake_one h]

/-- By induction on the waiting threads: a release wakes the first of them, and with none left the
unit stays and is taken back. -/
theorem workCompletion_spec (hok : sem.waiters.Ok) (hvalue : sem.value = 0) {fuel : Nat}
    (hfuel : sem.waiters.suspendThread.length + 2 ≤ fuel) :
    ∃ sem', workqueueWorkCompletion worker fuel sem = some (sem', .eok) ∧ sem'.value = 0 ∧
      sem'.waiters.suspendThread = [] ∧
      sem'.waiters.resumed = sem.waiters.resumed ++ sem.waiters.suspendThread ∧
      sem'.waiters.handedOver = sem.waiters.handedOver ++ sem.waiters.suspendThread ∧
      sem'.waiters.Ok := by
  induction hl : sem.waiters.suspendThread generalizing sem fuel with
  | nil =>
    obtain ⟨fuel, rfl⟩ : ∃ k, fuel = k + 2 := ⟨fuel - 2, by omega⟩
    have hrelease : rtSemRelease sem = { sem with value := 1 } := by
      unfold rtSemRelease
      rw [if_neg (not_not_intro hl), hvalue]
      rfl
    rw [workCompletion_zero hvalue, hrelease, workCompletion_one rfl]
    exact ⟨_, rfl, rfl, hl, (List.append_nil _).symm, (List.append_nil _).symm, hok⟩
  | cons t rest ih =>
    have hrelease : rtSemRelease sem = { sem with waiters := sem.waiters.rtIpcListResume } := by
      unfold rtSemRelease
      exact if_pos (hl ▸ List.cons_ne_nil t rest)
    have hresume := hok.rtIpcListResume_cons hl
    have hrest : sem.waiters.rtIpcListResume.suspendThread = rest := by rw [hresume]
    have hresumed : sem.waiters.rtIpcListResume.resumed = sem.waiters.resumed ++ [t] := by
      rw [hresume]
    rw [hl, List.length_cons] at hfuel
    obtain ⟨fuel, rfl⟩ : ∃ k, fuel = k + 1 := ⟨fuel - 1, by omega⟩
    have hnext : sem.waiters.rtIpcListResume.suspendThread.length + 2 ≤ fuel := by
      rw [hrest]
      omega
    rw [workCompletion_zero hvalue, hrelease]
    obtain ⟨sem', hcompletion, hzero, hnobody, hwoken, hhanded, hok'⟩ :=
      @ih { sem with waiters := sem.waiters.rtIpcListResume } hok.rtIpcListResume hvalue fuel
        hnext hrest
    refine ⟨sem', hcompletion, hzero, hnobody, ?_, ?_, hok'⟩
    · rw [hwoken, hresumed, List.append_assoc, List.singleton_append]
    · rw [hhanded, hok.handedOver_rtIpcListResume hl, List.append_assoc, List.singleton_append]

/-- What returns, returns the same if it is let run on. -/
theorem workCompletion_mono {fuel : Nat} {r : RtSemaphore Thread × Err}
    (h : workqueueWorkCompletion worker fuel sem = some r) (more : Nat) :
    workqueueWorkCompletion worker (fuel + more) sem = some r := by
  induction fuel generalizing sem with
  | zero => cases h
  | succ fuel ih =>
    rw [Nat.add_right_comm]
    rw [workqueueWorkCompletion] at h ⊢
    cases htry : rtSemTrytake sem worker with
    | mk sem' result =>
      rw [htry] at h
      match result with
      | none => exact h
      | some .eok => exact h
      | some .error => exact h
      | some .etimeout => exact ih h

/-! ## Runs -/

/-- Between the steps the semaphore has no unit. -/
structure Inv (queue : RtWorkqueue Thread Work) : Prop where
  value : queue.sem.value = 0
  ok : queue.sem.waiters.Ok

omit [DecidableEq Work] in
theorem Inv.completes (h : Inv queue) : Completes worker queue := by
  intro fuel hfuel
  obtain ⟨sem, hcompletion, hzero, hnobody, hwoken, hhanded, -⟩ :=
    workCompletion_spec h.ok h.value hfuel
  exact ⟨sem, hcompletion, hzero, hnobody, hwoken, hhanded⟩

omit [DecidableEq Thread] [DecidableEq Work] in
theorem inv_create (priority : Thread → Nat) :
    Inv (rtWorkqueueCreate priority : RtWorkqueue Thread Work) where
  value := rfl
  ok := Waiters.ok_idle priority

/-- Who cancels the current work waits, as there is no unit. -/
theorem Inv.cancelWorkSync (h : Inv queue) {thread : Thread}
    (hrun : queue.sem.waiters.Running thread) (work : Work) :
    Inv (rtWorkqueueCancelWorkSync queue thread work) := by
  unfold rtWorkqueueCancelWorkSync
  split
  · have hwaits : (rtSemTake queue.sem thread (-1)).1 = { queue.sem with
        waiters := (queue.sem.waiters.setError thread .eok).rtIpcListSuspend queue.sem.flag
          thread } := by
      have hnone : ¬ queue.sem.value > 0 := by
        rw [h.value]
        decide
      unfold rtSemTake
      rw [if_neg hnone, if_neg (by decide)]
      dsimp only
      rw [if_neg (by decide)]
    rw [hwaits]
    exact ⟨h.value, (h.ok.setError hrun .eok).rtIpcListSuspend (hrun.setError .eok)
      (by simp [Waiters.setError]) _⟩
  · exact ⟨h.value, h.ok⟩

omit [DecidableEq Work] in
/-- A completion that returns has come to its end. -/
theorem Inv.complete (h : Inv queue) {fuel : Nat} {r : RtSemaphore Thread × Err}
    (hr : workqueueWorkCompletion worker fuel queue.sem = some r) :
    r.1.value = 0 ∧ r.1.waiters.Ok := by
  obtain ⟨sem, hcompletion, hzero, -, -, -, hok⟩ :=
    workCompletion_spec h.ok h.value (Nat.le_add_left _ fuel)
  rw [workCompletion_mono hr] at hcompletion
  obtain rfl := Option.some.inj hcompletion
  exact ⟨hzero, hok⟩

theorem Inv.step {e : Event Thread Work} (h : Inv queue)
    (hstep : step worker queue e = some queue') : Inv queue' := by
  cases e with
  | queue e =>
    obtain ⟨-, hmap⟩ := Option.ite_none_right_eq_some.mp hstep
    obtain ⟨o, -, rfl⟩ := Option.map_eq_some_iff.mp hmap
    exact ⟨h.value, h.ok⟩
  | cancelWorkSync thread work =>
    obtain ⟨hrun, ⟨⟩⟩ := Option.ite_none_right_eq_some.mp hstep
    exact h.cancelWorkSync hrun work
  | complete fuel =>
    obtain ⟨-, hmap⟩ := Option.ite_none_right_eq_some.mp hstep
    obtain ⟨r, hr, rfl⟩ := Option.map_eq_some_iff.mp hmap
    exact ⟨(h.complete hr).1, (h.complete hr).2⟩
  | run thread =>
    obtain ⟨-, ⟨⟩⟩ := Option.ite_none_right_eq_some.mp hstep
    exact ⟨h.value, h.ok.runAgain thread⟩

end

/-- Whatever the threads do with the queue, a completion terminates, wakes every thread that waits
for it, and leaves the semaphore without a unit and without a waiter. -/
theorem completes_throughout (worker : Thread) (priority : Thread → Nat)
    (es : List (Event Thread Work)) :
    Throughout (step worker) (Completes worker) (rtWorkqueueCreate priority) es :=
  throughout_of_keep (fun _ h => h.completes) (fun _ _ _ h hstep => h.step hstep)
    (inv_create priority) es

end ControlRTT.Drivers.WorkCompletion

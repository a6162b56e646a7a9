import ControlRTT.Lib.Runs
import Mathlib.Algebra.Order.Ring.Int
import Mathlib.Data.List.Nodup

/-! # Work queues (workqueue.c)

Submitters append works to a list under a lock and wake the worker afterwards; the worker asks
whether the list is empty, suspends itself if it is, and takes the first work later. Neither goes
back to the list before it acts. A worker that has been woken may therefore find nothing to take
(`runsSubmitted_iff`), and one that has found nothing may sleep on a work
(`nothingLeft_throughout_iff`). -/
namespace ControlRTT.Drivers.WorkQueue
open ControlRTT.Lib.Runs

/-- Where the worker is in its loop: before its test of the list, before `rt_thread_suspend`,
suspended, before the critical section in which it takes a work, in the work's function, or
nowhere, when it has taken the head of an empty list for a work. -/
inductive Worker where
  | testing
  | suspending
  | asleep
  | taking
  | working
  | astray
  deriving DecidableEq, Repr

/-- `resuming` is the number of submitters between their critical section and their
`rt_thread_resume`. -/
structure RtWorkqueue (Work : Type) where
  workList : List Work := []
  workCurrent : Option Work := none
  worker : Worker := .testing
  resuming : Nat := 0

inductive Result where
  | eok
  | ebusy
  deriving DecidableEq, Repr

variable {Work : Type} [DecidableEq Work]

namespace RtWorkqueue

def remove (q : RtWorkqueue Work) (work : Work) : RtWorkqueue Work :=
  { q with workList := q.workList.erase work }

def append (q : RtWorkqueue Work) (work : Work) : RtWorkqueue Work :=
  { q with workList := q.workList ++ [work] }

/-- The critical section of a submission. -/
def submit (q : RtWorkqueue Work) (work : Work) : RtWorkqueue Work × Result :=
  if q.workCurrent = some work then (q, .ebusy)
  else if q.workCurrent = none then
    ({ (q.remove work).append work with resuming := q.resuming + 1 }, .eok)
  else ((q.remove work).append work, .eok)

def rtWorkqueueDowork (q : RtWorkqueue Work) (work : Work) : RtWorkqueue Work × Result :=
  q.submit work

def rtWorkqueueCriticalWork (q : RtWorkqueue Work) (work : Work) : RtWorkqueue Work × Result :=
  q.submit work

def rtWorkqueueCancelWork (q : RtWorkqueue Work) (work : Work) : RtWorkqueue Work × Result :=
  if q.workCurrent = some work then (q, .ebusy) else (q.remove work, .eok)

/-- The current work is waited for with the semaphore of the queue. -/
def rtWorkqueueCancelWorkSync (q : RtWorkqueue Work) (work : Work) : RtWorkqueue Work × Result :=
  if q.workCurrent = some work then (q, .eok) else (q.remove work, .eok)

/-- The loop of `rt_workqueue_cancel_all_work` over the nodes that are left. The scheduler is
locked; no interrupt handler submits meanwhile. -/
def removeEach (q : RtWorkqueue Work) : List Work → RtWorkqueue Work
  | [] => q
  | node :: next => (q.remove node).removeEach next

def rtWorkqueueCancelAllWork (q : RtWorkqueue Work) : RtWorkqueue Work := q.removeEach q.workList

/-- `rt_thread_resume` on the worker. One that is not suspended by its loop goes on as it is. -/
def resumeWorker (q : RtWorkqueue Work) : RtWorkqueue Work :=
  { q with
    worker := if q.worker = .asleep then .taking else q.worker
    resuming := q.resuming - 1 }

def testList (q : RtWorkqueue Work) : RtWorkqueue Work :=
  { q with worker := if q.workList = [] then .suspending else .taking }

def suspendSelf (q : RtWorkqueue Work) : RtWorkqueue Work := { q with worker := .asleep }

def take (q : RtWorkqueue Work) : RtWorkqueue Work :=
  match q.workList with
  | [] => { q with worker := .astray }
  | work :: rest => { q with workList := rest, workCurrent := some work, worker := .working }

/-- The work's function has returned, and the waiting cancellers are told. -/
def finish (q : RtWorkqueue Work) : RtWorkqueue Work :=
  { q with workCurrent := none, worker := .testing }

end RtWorkqueue

inductive Event (Work : Type) where
  | dowork (work : Work)
  | criticalWork (work : Work)
  | cancelWork (work : Work)
  | cancelWorkSync (work : Work)
  | cancelAllWork
  | resume
  | test
  | suspend
  | take
  | finish

inductive Entry (Work : Type) where
  | submitted (work : Work)
  | cancelled (work : Work)
  | cancelledAll
  | executed (work : Work)

/-- The work has been submitted and neither cancelled nor executed since. The log has its last
entry first. -/
def Outstanding (log : List (Entry Work)) (work : Work) : Prop :=
  match log with
  | [] => False
  | .submitted w :: log => w = work ∨ Outstanding log work
  | .cancelled w :: log => w ≠ work ∧ Outstanding log work
  | .cancelledAll :: _ => False
  | .executed w :: log => w ≠ work ∧ Outstanding log work

/-- A queue, with what has been submitted, cancelled and executed. -/
structure Observed (Work : Type) where
  queue : RtWorkqueue Work := {}
  log : List (Entry Work) := []

namespace Observed

/-- A call counts if it has not found the work busy. -/
def after (o : Observed Work) (call : RtWorkqueue Work × Result) (entry : List (Entry Work)) :
    Observed Work :=
  if call.2 = .eok then { o with queue := call.1, log := entry ++ o.log }
  else { o with queue := call.1 }

end Observed

/-- Submitters and cancellers can call at any time, each part of the worker's loop comes after the
one before it, and only a submitter behind its critical section resumes the worker. -/
def step (o : Observed Work) : Event Work → Option (Observed Work)
  | .dowork w => some (o.after (o.queue.rtWorkqueueDowork w) [.submitted w])
  | .criticalWork w => some (o.after (o.queue.rtWorkqueueCriticalWork w) [.submitted w])
  | .cancelWork w => some (o.after (o.queue.rtWorkqueueCancelWork w) [.cancelled w])
  | .cancelWorkSync w =>
    some (o.after (o.queue.rtWorkqueueCancelWorkSync w)
      (if o.queue.workCurrent = some w then [] else [.cancelled w]))
  | .cancelAllWork => some (o.after (o.queue.rtWorkqueueCancelAllWork, .eok) [.cancelledAll])
  | .resume => if 0 < o.queue.resuming then some { o with queue := o.queue.resumeWorker } else none
  | .test => if o.queue.worker = .testing then some { o with queue := o.queue.testList } else none
  | .suspend =>
    if o.queue.worker = .suspending then some { o with queue := o.queue.suspendSelf } else none
  | .take =>
    if o.queue.worker = .taking then
      some (o.after (o.queue.take, .eok) (o.queue.workList.head?.toList.map .executed))
    else none
  | .finish => if o.queue.worker = .working then some { o with queue := o.queue.finish } else none

/-- The worker takes a work, and one that is outstanding. -/
def RunsSubmitted (o : Observed Work) : Event Work → Prop
  | .take => ∃ work rest, o.queue.workList = work :: rest ∧ Outstanding o.log work
  | _ => True

/-- The work is not the last one before a worker that is about to take it. -/
def Spared (o : Observed Work) (w : Work) : Prop :=
  o.queue.worker = .taking → o.queue.workList ≠ [w]

/-- Nobody wakes the worker with the list empty, and nobody takes the last work from before a
worker that is about to take it. -/
def Undisturbed (o : Observed Work) : Event Work → Prop
  | .resume => o.queue.worker = .asleep → o.queue.workList ≠ []
  | .cancelWork w => Spared o w
  | .cancelWorkSync w => Spared o w
  | .cancelAllWork => o.queue.worker ≠ .taking
  | _ => True

/-- A sleeping worker that nobody is about to resume has left no work. -/
def NothingLeft (o : Observed Work) : Prop :=
  o.queue.worker = .asleep → o.queue.resuming = 0 → o.queue.workList = []

/-- Where the worker suspends itself, there is still no work, or a submitter is about to resume
it. -/
def InTime (o : Observed Work) : Event Work → Prop
  | .suspend => o.queue.workList = [] ∨ 0 < o.queue.resuming
  | _ => True

/-! ## The operations -/

omit [DecidableEq Work] in
@[simp] theorem queue_after (o : Observed Work) (call : RtWorkqueue Work × Result)
    (entry : List (Entry Work)) : (o.after call entry).queue = call.1 := by
  unfold Observed.after
  split
  · rfl
  · rfl

/-- A work that is not the current one goes to the end of the list, and its submitter is to
resume a worker without a current work. -/
theorem submit_cases (q : RtWorkqueue Work) (w : Work) :
    (q.workCurrent = some w ∧ q.submit w = (q, .ebusy)) ∨
    (q.workCurrent ≠ some w ∧ ∃ n, (q.workCurrent = none → 0 < n) ∧
      q.submit w = ({ q with workList := q.workList.erase w ++ [w], resuming := n }, .eok)) := by
  unfold RtWorkqueue.submit
  split
  · rename_i hbusy
    exact .inl ⟨hbusy, rfl⟩
  · rename_i hbusy
    split
    · exact .inr ⟨hbusy, q.resuming + 1, fun _ => Nat.succ_pos _, rfl⟩
    · rename_i hcurrent
      exact .inr ⟨hbusy, q.resuming, fun h => absurd h hcurrent, rfl⟩

/-- Of the two ways to cancel a work, both leave the current one and remove another. -/
theorem cancel_cases (q : RtWorkqueue Work) (w : Work) :
    (q.workCurrent = some w ∧ q.rtWorkqueueCancelWork w = (q, .ebusy) ∧
      q.rtWorkqueueCancelWorkSync w = (q, .eok)) ∨
    (q.workCurrent ≠ some w ∧ q.rtWorkqueueCancelWork w = (q.remove w, .eok) ∧
      q.rtWorkqueueCancelWorkSync w = (q.remove w, .eok)) := by
  unfold RtWorkqueue.rtWorkqueueCancelWork RtWorkqueue.rtWorkqueueCancelWorkSync
  by_cases hbusy : q.workCurrent = some w
  · exact .inl ⟨hbusy, if_pos hbusy, if_pos hbusy⟩
  · exact .inr ⟨hbusy, if_neg hbusy, if_neg hbusy⟩

theorem removeEach_eq (q : RtWorkqueue Work) (l : List Work) :
    q.removeEach l = { q with workList := l.foldl List.erase q.workList } := by
  induction l generalizing q with
  | nil => rfl
  | cons node next ih => exact ih (q.remove node)

/-- The loop empties the list. -/
theorem cancelAllWork_eq (q : RtWorkqueue Work) :
    q.rtWorkqueueCancelAllWork = { q with workList := [] } := by
  have hself : ∀ l : List Work, l.foldl List.erase l = [] := by
    intro l
    induction l with
    | nil => rfl
    | cons w rest ih => rwa [List.foldl_cons, List.erase_cons_head]
  unfold RtWorkqueue.rtWorkqueueCancelAllWork
  rw [removeEach_eq, hself]

omit [DecidableEq Work] in
theorem take_nil {q : RtWorkqueue Work} (hl : q.workList = []) :
    q.take = { q with worker := .astray } := by
  unfold RtWorkqueue.take
  rw [hl]

omit [DecidableEq Work] in
theorem take_cons {q : RtWorkqueue Work} {w : Work} {rest : List Work}
    (hl : q.workList = w :: rest) :
    q.take = { q with workList := rest, workCurrent := some w, worker := .working } := by
  unfold RtWorkqueue.take
  rw [hl]

omit [DecidableEq Work] in
/-- A worker that takes is not idle afterwards. -/
theorem worker_take (q : RtWorkqueue Work) :
    q.take.worker = .working ∨ q.take.worker = .astray := by
  cases hl : q.workList with
  | nil =>
    rw [take_nil hl]
    exact .inr rfl
  | cons w rest =>
    rw [take_cons hl]
    exact .inl rfl

/-! ## What every step keeps -/

/-- The list has the outstanding works, each once. Only a working worker has a current work. -/
structure Inv (o : Observed Work) : Prop where
  nodup : o.queue.workList.Nodup
  outstanding : ∀ w, w ∈ o.queue.workList ↔ Outstanding o.log w
  current : o.queue.worker ≠ .working → o.queue.workCurrent = none

omit [DecidableEq Work] in
theorem inv_start : Inv ({} : Observed Work) where
  nodup := List.nodup_nil
  outstanding _ := ⟨(nomatch ·), False.elim⟩
  current _ := rfl

namespace Inv
variable {o : Observed Work}

theorem submit (h : Inv o) (w : Work) : Inv (o.after (o.queue.submit w) [.submitted w]) := by
  obtain ⟨-, heq⟩ | ⟨-, n, -, heq⟩ := submit_cases o.queue w
  · rw [heq]
    exact h
  · rw [heq]
    refine ⟨?_, fun u => ?_, h.current⟩
    · refine (List.perm_append_singleton w _).nodup_iff.mpr (List.nodup_cons.mpr ⟨?_, ?_⟩)
      · exact fun hmem => (h.nodup.mem_erase_iff.mp hmem).1 rfl
      · exact h.nodup.erase w
    · change u ∈ o.queue.workList.erase w ++ [w] ↔ w = u ∨ Outstanding o.log u
      rw [List.mem_append, List.mem_singleton, h.nodup.mem_erase_iff, h.outstanding u]
      by_cases huw : u = w
      · simp [huw]
      · simp [huw, Ne.symm huw]

theorem remove (h : Inv o) (w : Work) :
    Inv (o.after (o.queue.remove w, .eok) [.cancelled w]) where
  nodup := h.nodup.erase w
  outstanding u := by
    change u ∈ o.queue.workList.erase w ↔ w ≠ u ∧ Outstanding o.log u
    rw [h.nodup.mem_erase_iff, h.outstanding u, ne_comm]
  current := h.current

omit [DecidableEq Work] in
theorem take (h : Inv o) (htaking : o.queue.worker = .taking) :
    Inv (o.after (o.queue.take, .eok) (o.queue.workList.head?.toList.map .executed)) := by
  cases hl : o.queue.workList with
  | nil =>
    rw [take_nil hl]
    exact ⟨h.nodup, h.outstanding, fun _ => h.current (htaking ▸ nofun)⟩
  | cons w rest =>
    rw [take_cons hl]
    have hnodup := List.nodup_cons.mp (hl ▸ h.nodup)
    refine ⟨hnodup.2, fun u => ?_, fun hne => absurd rfl hne⟩
    change u ∈ rest ↔ w ≠ u ∧ Outstanding o.log u
    rw [← h.outstanding u, hl, List.mem_cons]
    constructor
    · intro hu
      exact ⟨fun hwu => hnodup.1 (hwu ▸ hu), .inr hu⟩
    · intro ⟨hne, hu⟩
      exact hu.resolve_left (Ne.symm hne)

theorem step {o' : Observed Work} {e : Event Work} (h : Inv o) (hstep : step o e = some o') :
    Inv o' := by
  cases e with
  | dowork w | criticalWork w =>
    obtain rfl := Option.some.inj hstep
    exact h.submit w
  | cancelWork w =>
    obtain rfl := Option.some.inj hstep
    obtain ⟨-, heq, -⟩ | ⟨-, heq, -⟩ := cancel_cases o.queue w
    · rw [heq]
      exact h
    · rw [heq]
      exact h.remove w
  | cancelWorkSync w =>
    obtain rfl := Option.some.inj hstep
    obtain ⟨hbusy, -, heq⟩ | ⟨hbusy, -, heq⟩ := cancel_cases o.queue w
    · rw [heq, if_pos hbusy]
      exact h
    · rw [heq, if_neg hbusy]
      exact h.remove w
  | cancelAllWork =>
    obtain rfl := Option.some.inj hstep
    rw [cancelAllWork_eq]
    exact ⟨List.nodup_nil, fun _ => ⟨(nomatch ·), False.elim⟩, h.current⟩
  | resume =>
    obtain ⟨-, ⟨⟩⟩ := Option.ite_none_right_eq_some.mp hstep
    refine ⟨h.nodup, h.outstanding, fun hne => h.current fun hworking => hne ?_⟩
    change (if o.queue.worker = .asleep then Worker.taking else o.queue.worker) = .working
    rw [hworking, if_neg nofun]
  | test =>
    obtain ⟨htesting, ⟨⟩⟩ := Option.ite_none_right_eq_some.mp hstep
    exact ⟨h.nodup, h.outstanding, fun _ => h.current (htesting ▸ nofun)⟩
  | suspend =>
    obtain ⟨hsuspending, ⟨⟩⟩ := Option.ite_none_right_eq_some.mp hstep
    exact ⟨h.nodup, h.outstanding, fun _ => h.current (hsuspending ▸ nofun)⟩
  | take =>
    obtain ⟨htaking, ⟨⟩⟩ := Option.ite_none_right_eq_some.mp hstep
    exact h.take htaking
  | finish =>
    obtain ⟨-, ⟨⟩⟩ := Option.ite_none_right_eq_some.mp hstep
    exact ⟨h.nodup, h.outstanding, fun _ => rfl⟩

end Inv

/-! ## What the worker takes -/

/-- A worker that is about to take a work has one before it. -/
def Ready (q : RtWorkqueue Work) : Prop := q.worker = .taking → q.workList ≠ []

omit [DecidableEq Work] in
theorem Inv.takes_iff {o : Observed Work} (h : Inv o) :
    RunsSubmitted o .take ↔ o.queue.workList ≠ [] := by
  constructor
  · intro ⟨w, rest, hl, _⟩ hempty
    rw [hl] at hempty
    cases hempty
  · intro hne
    obtain ⟨w, rest, hl⟩ := List.exists_cons_of_ne_nil hne
    exact ⟨w, rest, hl, (h.outstanding w).mp (hl ▸ List.mem_cons_self)⟩

/-- What the worker is about to take is outstanding if there is something. -/
theorem Inv.ready_iff_next {o : Observed Work} (h : Inv o) : Ready o.queue ↔
    ∀ o', WorkQueue.step o .take = some o' → RunsSubmitted o .take := by
  rw [h.takes_iff]
  constructor
  · intro hready o' hstep
    exact hready (Option.ite_none_right_eq_some.mp hstep).1
  · intro hnext htaking
    exact hnext _ (if_pos htaking)

/-- A submitted work is in the list. -/
theorem Ready.submit {q : RtWorkqueue Work} (h : Ready q) (w : Work) : Ready (q.submit w).1 := by
  intro htaking
  obtain ⟨-, heq⟩ | ⟨-, n, -, heq⟩ := submit_cases q w
  · rw [heq] at htaking ⊢
    exact h htaking
  · rw [heq]
    exact List.append_ne_nil_of_right_ne_nil _ (List.cons_ne_nil w [])

theorem Ready.remove_iff {o : Observed Work} (h : Ready o.queue) (w : Work) :
    Ready (o.queue.remove w) ↔ Spared o w := by
  refine forall_congr' fun htaking => not_congr ?_
  change o.queue.workList.erase w = [] ↔ o.queue.workList = [w]
  rw [List.erase_eq_nil_iff, or_iff_right (h htaking)]

omit [DecidableEq Work] in
/-- A worker with a current work is not about to take one. -/
theorem Inv.spared_of_busy {o : Observed Work} (h : Inv o) {w : Work}
    (hbusy : o.queue.workCurrent = some w) : Spared o w := by
  intro htaking
  have hidle := h.current (htaking ▸ nofun)
  rw [hbusy] at hidle
  cases hidle

/-- A step leaves the worker something to take exactly if it is undisturbed. -/
theorem ready_iff {o o' : Observed Work} {e : Event Work} (h : Inv o) (hready : Ready o.queue)
    (hstep : step o e = some o') : Ready o'.queue ↔ Undisturbed o e := by
  cases e with
  | dowork w | criticalWork w =>
    obtain rfl := Option.some.inj hstep
    refine iff_of_true ?_ trivial
    rw [queue_after]
    exact hready.submit w
  | cancelWork w =>
    obtain rfl := Option.some.inj hstep
    rw [queue_after]
    obtain ⟨hbusy, heq, -⟩ | ⟨-, heq, -⟩ := cancel_cases o.queue w
    · rw [heq]
      exact iff_of_true hready (h.spared_of_busy hbusy)
    · rw [heq]
      exact hready.remove_iff w
  | cancelWorkSync w =>
    obtain rfl := Option.some.inj hstep
    rw [queue_after]
    obtain ⟨hbusy, -, heq⟩ | ⟨-, -, heq⟩ := cancel_cases o.queue w
    · rw [heq]
      exact iff_of_true hready (h.spared_of_busy hbusy)
    · rw [heq]
      exact hready.remove_iff w
  | cancelAllWork =>
    obtain rfl := Option.some.inj hstep
    rw [queue_after, cancelAllWork_eq]
    constructor
    · intro hnone htaking
      exact hnone htaking rfl
    · intro hnot htaking
      exact absurd htaking hnot
  | resume =>
    obtain ⟨-, ⟨⟩⟩ := Option.ite_none_right_eq_some.mp hstep
    unfold Ready RtWorkqueue.resumeWorker Undisturbed
    dsimp only
    split
    · rename_i hasleep
      exact ⟨fun hlist _ => hlist rfl, fun hlist _ => hlist hasleep⟩
    · rename_i hasleep
      exact iff_of_true hready fun h => absurd h hasleep
  | test =>
    obtain ⟨-, ⟨⟩⟩ := Option.ite_none_right_eq_some.mp hstep
    refine iff_of_true (fun htaking hempty => ?_) trivial
    change (if o.queue.workList = [] then Worker.suspending else .taking) = .taking at htaking
    rw [if_pos (show o.queue.workList = [] from hempty)] at htaking
    cases htaking
  | suspend | finish =>
    obtain ⟨-, ⟨⟩⟩ := Option.ite_none_right_eq_some.mp hstep
    exact iff_of_true (fun htaking => nomatch htaking) trivial
  | take =>
    obtain ⟨-, ⟨⟩⟩ := Option.ite_none_right_eq_some.mp hstep
    refine iff_of_true (fun htaking => ?_) trivial
    rw [queue_after] at htaking
    obtain hworking | hastray := worker_take o.queue
    · cases hworking.symm.trans htaking
    · cases hastray.symm.trans htaking

/-! ## What the worker leaves -/

namespace NothingLeft
variable {o : Observed Work}

omit [DecidableEq Work] in
theorem of_queue {call : RtWorkqueue Work × Result} {entry : List (Entry Work)}
    (h : call.1.worker = .asleep → call.1.resuming = 0 → call.1.workList = []) :
    NothingLeft (o.after call entry) := by
  intro hasleep hnobody
  rw [queue_after] at hasleep hnobody ⊢
  exact h hasleep hnobody

/-- Whoever submits a work to a sleeping worker is to resume it. -/
theorem submit (hleft : NothingLeft o) (h : Inv o) (w : Work) (entry : List (Entry Work)) :
    NothingLeft (o.after (o.queue.submit w) entry) := by
  refine of_queue fun hasleep hnobody => ?_
  obtain ⟨-, heq⟩ | ⟨-, n, hpos, heq⟩ := submit_cases o.queue w
  · rw [heq] at hasleep hnobody ⊢
    exact hleft hasleep hnobody
  · rw [heq] at hasleep hnobody
    exact absurd hnobody (hpos (h.current (hasleep ▸ nofun))).ne'

theorem remove (hleft : NothingLeft o) (w : Work) (result : Result) (entry : List (Entry Work)) :
    NothingLeft (o.after (o.queue.remove w, result) entry) := by
  refine of_queue fun hasleep hnobody => ?_
  change o.queue.workList.erase w = []
  rw [hleft hasleep hnobody, List.erase_nil]

end NothingLeft

/-- A step leaves no work behind a sleeping worker exactly if it does not suspend it too late. -/
theorem nothingLeft_iff {o o' : Observed Work} {e : Event Work} (h : Inv o)
    (hleft : NothingLeft o) (hstep : step o e = some o') : NothingLeft o' ↔ InTime o e := by
  cases e with
  | dowork w | criticalWork w =>
    obtain rfl := Option.some.inj hstep
    exact iff_of_true (hleft.submit h w _) trivial
  | cancelWork w =>
    obtain rfl := Option.some.inj hstep
    refine iff_of_true ?_ trivial
    obtain ⟨-, heq, -⟩ | ⟨-, heq, -⟩ := cancel_cases o.queue w
    · rw [heq]
      exact NothingLeft.of_queue hleft
    · rw [heq]
      exact hleft.remove w _ _
  | cancelWorkSync w =>
    obtain rfl := Option.some.inj hstep
    refine iff_of_true ?_ trivial
    obtain ⟨-, -, heq⟩ | ⟨-, -, heq⟩ := cancel_cases o.queue w
    · rw [heq]
      exact NothingLeft.of_queue hleft
    · rw [heq]
      exact hleft.remove w _ _
  | cancelAllWork =>
    obtain rfl := Option.some.inj hstep
    rw [cancelAllWork_eq]
    exact iff_of_true (NothingLeft.of_queue fun _ _ => rfl) trivial
  | resume =>
    obtain ⟨-, ⟨⟩⟩ := Option.ite_none_right_eq_some.mp hstep
    refine iff_of_true (fun hasleep => ?_) trivial
    change (if o.queue.worker = .asleep then Worker.taking else o.queue.worker) = .asleep
      at hasleep
    split at hasleep
    · cases hasleep
    · rename_i hnot
      exact absurd hasleep hnot
  | test =>
    obtain ⟨-, ⟨⟩⟩ := Option.ite_none_right_eq_some.mp hstep
    refine iff_of_true (fun hasleep => ?_) trivial
    change (if o.queue.workList = [] then Worker.suspending else .taking) = .asleep at hasleep
    split at hasleep
    · cases hasleep
    · cases hasleep
  | suspend =>
    obtain ⟨-, ⟨⟩⟩ := Option.ite_none_right_eq_some.mp hstep
    constructor
    · intro hnothing
      obtain hnobody | hpos := Nat.eq_zero_or_pos o.queue.resuming
      · exact .inl (hnothing rfl hnobody)
      · exact .inr hpos
    · intro htime _ hnobody
      exact htime.resolve_right fun hpos => hpos.ne' hnobody
  | take =>
    obtain ⟨-, ⟨⟩⟩ := Option.ite_none_right_eq_some.mp hstep
    refine iff_of_true (NothingLeft.of_queue fun hasleep => ?_) trivial
    obtain hworking | hastray := worker_take o.queue
    · cases hworking.symm.trans hasleep
    · cases hastray.symm.trans hasleep
  | finish =>
    obtain ⟨-, ⟨⟩⟩ := Option.ite_none_right_eq_some.mp hstep
    exact iff_of_true (fun hasleep => nomatch hasleep) trivial

/-! ## Whole runs -/

/-- Whatever is submitted and cancelled, every work the worker takes in a run, and every one it
could take next at any point of it, is there and outstanding exactly if nobody disturbs the
worker. -/
theorem runsSubmitted_iff (es : List (Event Work)) :
    (∀ pre, pre <+: es → Along step RunsSubmitted {} (pre ++ [.take])) ↔
      Along step Undisturbed {} es := by
  have hother : ∀ (o : Observed Work) e, e ≠ .take → RunsSubmitted o e := by
    intro o e he
    cases e with
    | take => exact absurd rfl he
    | dowork | criticalWork | cancelWork | cancelWorkSync | cancelAllWork => trivial
    | resume | test | suspend | finish => trivial
  refine (along_prefixes_iff hother {} es).trans ?_
  exact throughout_iff_along (J := fun o => Inv o ∧ Ready o.queue)
    (fun _ h => h.1.ready_iff_next.mp h.2)
    (fun _ _ _ h hgood hstep => ⟨h.1.step hstep, (ready_iff h.1 h.2 hstep).mpr hgood⟩)
    (fun _ _ _ h hstep hnext =>
      (ready_iff h.1 h.2 hstep).mp ((h.1.step hstep).ready_iff_next.mpr hnext))
    ⟨inv_start, fun htaking => nomatch htaking⟩ es

/-- The only work is cancelled after the worker has been resumed for it. -/
theorem woken_for_nothing :
    ¬ ∀ pre, pre <+: [Event.test, .suspend, .dowork (), .resume, .cancelWork ()] →
      Along step RunsSubmitted {} (pre ++ [.take]) := fun h => by
  have hrun := h _ (List.prefix_refl _)
  obtain ⟨-, hrun⟩ := hrun _ rfl
  obtain ⟨-, hrun⟩ := hrun _ rfl
  obtain ⟨-, hrun⟩ := hrun _ rfl
  obtain ⟨-, hrun⟩ := hrun _ rfl
  obtain ⟨-, hrun⟩ := hrun _ rfl
  obtain ⟨⟨work, rest, hl, -⟩, -⟩ := hrun _ rfl
  cases hl

/-- Whatever is submitted and cancelled, a sleeping worker has left no work, except to a submitter
that is about to resume it, exactly if it never suspends itself with a work in the list that
nobody is going to resume it for. -/
theorem nothingLeft_throughout_iff (es : List (Event Work)) :
    Throughout step NothingLeft {} es ↔ Along step InTime {} es :=
  throughout_iff_along (J := fun o => Inv o ∧ NothingLeft o) (fun _ h => h.2)
    (fun _ _ _ h hgood hstep => ⟨h.1.step hstep, (nothingLeft_iff h.1 h.2 hstep).mpr hgood⟩)
    (fun _ _ _ h hstep hnext => (nothingLeft_iff h.1 h.2 hstep).mp hnext)
    ⟨inv_start, fun _ _ => rfl⟩ es

/-- A work is submitted between the worker's test and its suspension. The worker is not suspended
yet when it is resumed. -/
theorem work_left_behind :
    ¬ Throughout step NothingLeft ({} : Observed Unit) [.test, .dowork (), .resume, .suspend] :=
  fun h => by
    have hlast := h.2 _ rfl |>.2 _ rfl |>.2 _ rfl |>.2 _ rfl
    cases hlast rfl rfl

end ControlRTT.Drivers.WorkQueue

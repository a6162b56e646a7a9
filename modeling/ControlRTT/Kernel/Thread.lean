import Mathlib.Algebra.Order.Ring.Int

/-! # Threads that wait on one object

What the wait list of an IPC object and the control blocks of its threads go
through (thread.c, the first part of ipc.c). A thread is ready or suspended on the
list; a call that waits ends at its `rt_schedule`, and `resumed` are the threads
made ready since that have not run again. The critical sections run with
interrupts off, so each is one step. -/
namespace ControlRTT.Kernel.Thread

/-- The codes a waiting call returns, without their signs. -/
inductive Err where
  | eok
  | error
  | etimeout
  deriving DecidableEq, Repr

inductive Stat where
  | ready
  | suspend
  deriving DecidableEq, Repr

inductive IpcFlag where
  | fifo
  | prio
  deriving DecidableEq, Repr

/-- The fields of a thread's control block that waiting uses; `timer` is whether its
timer has been started. -/
structure Tcb where
  stat : Stat := .ready
  error : Err := .eok
  currentPriority : Nat
  timer : Bool := false
  deriving DecidableEq, Repr

structure Waiters (Thread : Type) where
  tcb : Thread → Tcb
  suspendThread : List Thread := []
  resumed : List Thread := []

namespace Waiters
variable {Thread : Type} [DecidableEq Thread]

/-- All threads ready, none waiting. -/
def idle (priority : Thread → Nat) : Waiters Thread where
  tcb t := { currentPriority := priority t }

def setTcb (w : Waiters Thread) (t : Thread) (b : Tcb) : Waiters Thread :=
  { w with tcb := fun u => if u = t then b else w.tcb u }

def setError (w : Waiters Thread) (t : Thread) (e : Err) : Waiters Thread :=
  w.setTcb t { w.tcb t with error := e }

def rtThreadSuspend (w : Waiters Thread) (t : Thread) : Waiters Thread :=
  if (w.tcb t).stat ≠ .ready then w
  else w.setTcb t { w.tcb t with stat := .suspend, timer := false }

/-- Before the first thread of a larger priority number, else at the end. -/
def insertPrio (tcb : Thread → Tcb) (t : Thread) : List Thread → List Thread
  | [] => [t]
  | s :: rest =>
    if (tcb t).currentPriority < (tcb s).currentPriority then t :: s :: rest
    else s :: insertPrio tcb t rest

def rtIpcListSuspend (flag : IpcFlag) (w : Waiters Thread) (t : Thread) : Waiters Thread :=
  let w := w.rtThreadSuspend t
  match flag with
  | .fifo => { w with suspendThread := w.suspendThread ++ [t] }
  | .prio => { w with suspendThread := insertPrio w.tcb t w.suspendThread }

/-- `rt_timer_start` on the thread's own timer. -/
def startTimer (w : Waiters Thread) (t : Thread) : Waiters Thread :=
  w.setTcb t { w.tcb t with timer := true }

def rtThreadResume (w : Waiters Thread) (t : Thread) : Waiters Thread :=
  if (w.tcb t).stat ≠ .suspend then w
  else { w.setTcb t { w.tcb t with stat := .ready, timer := false } with
    suspendThread := w.suspendThread.erase t
    resumed := w.resumed ++ [t] }

/-- The first thread of the list is resumed. The callers have found the list not empty. -/
def rtIpcListResume (w : Waiters Thread) : Waiters Thread :=
  match w.suspendThread with
  | [] => w
  | t :: _ => w.rtThreadResume t

/-- The thread's timer, which does not repeat, has fired. -/
def rtThreadTimeout (w : Waiters Thread) (t : Thread) : Waiters Thread :=
  { w.setTcb t { w.tcb t with stat := .ready, error := .etimeout, timer := false } with
    suspendThread := w.suspendThread.erase t
    resumed := w.resumed ++ [t] }

/-- `rt_thread_control` with `RT_THREAD_CTRL_CHANGE_PRIORITY`. -/
def changePriority (w : Waiters Thread) (t : Thread) (priority : Nat) : Waiters Thread :=
  w.setTcb t { w.tcb t with currentPriority := priority }

/-- A resumed thread runs again, behind its `rt_schedule`. -/
def runAgain (w : Waiters Thread) (t : Thread) : Waiters Thread :=
  { w with resumed := w.resumed.erase t }

/-- The thread can call: it is ready and not inside a call. -/
def Running (w : Waiters Thread) (t : Thread) : Prop :=
  (w.tcb t).stat = .ready ∧ t ∉ w.resumed

instance (w : Waiters Thread) (t : Thread) : Decidable (w.Running t) :=
  inferInstanceAs (Decidable (_ ∧ _))

/-! ## What every step keeps -/

/-- The list holds the suspended threads, each once, and only they can time out. -/
structure Ok (w : Waiters Thread) : Prop where
  nodup : (w.suspendThread ++ w.resumed).Nodup
  stat : ∀ t, (w.tcb t).stat = .suspend ↔ t ∈ w.suspendThread
  timer : ∀ t, (w.tcb t).timer = true → t ∈ w.suspendThread
  waits : ∀ t ∈ w.suspendThread, (w.tcb t).error = .eok

omit [DecidableEq Thread] in
theorem ok_idle (priority : Thread → Nat) : (idle priority).Ok where
  nodup := List.nodup_nil
  stat _ := ⟨(nomatch ·), fun h => absurd h List.not_mem_nil⟩
  timer _ h := nomatch h
  waits _ h := absurd h List.not_mem_nil

@[simp] theorem setTcb_self (w : Waiters Thread) (t : Thread) (b : Tcb) :
    (w.setTcb t b).tcb t = b := if_pos rfl

theorem setTcb_ne (w : Waiters Thread) {t u : Thread} (b : Tcb) (h : u ≠ t) :
    (w.setTcb t b).tcb u = w.tcb u := if_neg h

theorem setTcb_setTcb (w : Waiters Thread) (t : Thread) (b b' : Tcb) :
    (w.setTcb t b).setTcb t b' = w.setTcb t b' := by
  unfold setTcb
  dsimp only
  congr 1
  funext u
  by_cases hut : u = t
  · rw [if_pos hut, if_pos hut]
  · rw [if_neg hut, if_neg hut, if_neg hut]

@[simp] theorem setTcb_suspendThread (w : Waiters Thread) (t : Thread) (b : Tcb) :
    (w.setTcb t b).suspendThread = w.suspendThread := rfl

@[simp] theorem setTcb_resumed (w : Waiters Thread) (t : Thread) (b : Tcb) :
    (w.setTcb t b).resumed = w.resumed := rfl

omit [DecidableEq Thread] in
theorem Ok.running_notMem {w : Waiters Thread} (h : w.Ok) {t : Thread} (ht : w.Running t) :
    t ∉ w.suspendThread := fun hmem => by
  have := (h.stat t).mpr hmem
  rw [ht.1] at this
  cases this

omit [DecidableEq Thread] in
theorem insertPrio_perm (tcb : Thread → Tcb) (t : Thread) (l : List Thread) :
    (insertPrio tcb t l).Perm (t :: l) := by
  induction l with
  | nil => exact .refl _
  | cons s rest ih =>
    rw [insertPrio]
    split
    · exact .refl _
    · exact (ih.cons s).trans (.swap t s rest)

/-- A running thread whose error is cleared goes to the list, somewhere. -/
theorem Ok.suspended {w : Waiters Thread} (h : w.Ok) {t : Thread} (ht : w.Running t)
    {b : Tcb} (hstat : b.stat = .suspend) (herr : b.error = .eok) {l : List Thread}
    (hl : l.Perm (t :: w.suspendThread)) :
    ({ w.setTcb t b with suspendThread := l } : Waiters Thread).Ok where
  nodup := by
    refine (List.Perm.nodup_iff (hl.append_right w.resumed)).mpr ?_
    refine List.nodup_cons.mpr ⟨fun hmem => ?_, h.nodup⟩
    rcases List.mem_append.mp hmem with hmem | hmem
    · exact h.running_notMem ht hmem
    · exact ht.2 hmem
  stat u := by
    rw [hl.mem_iff, List.mem_cons]
    by_cases hu : u = t
    · subst hu
      simp [hstat]
    · simp [setTcb_ne w b hu, h.stat u, hu]
  timer u hu := by
    rw [hl.mem_iff, List.mem_cons]
    by_cases hut : u = t
    · exact .inl hut
    · exact .inr (h.timer u (by simpa [setTcb_ne w b hut] using hu))
  waits u hu := by
    by_cases hut : u = t
    · subst hut
      simpa using herr
    · have hmem := (List.mem_cons.mp (hl.mem_iff.mp hu)).resolve_left hut
      simpa [setTcb_ne w b hut] using h.waits u hmem

theorem startTimer_setTcb (w : Waiters Thread) (t : Thread) (b : Tcb) (l : List Thread) :
    ({ w.setTcb t b with suspendThread := l } : Waiters Thread).startTimer t =
      { w.setTcb t { b with timer := true } with suspendThread := l } := by
  have hself := w.setTcb_self t b
  have hagain := w.setTcb_setTcb t b { b with timer := true }
  change { (w.setTcb t b).setTcb t { (w.setTcb t b).tcb t with timer := true } with
    suspendThread := l } = _
  rw [hself, hagain]

/-- A thread on the list becomes ready, whatever its error. -/
theorem Ok.readied {w : Waiters Thread} (h : w.Ok) {t : Thread} (ht : t ∈ w.suspendThread)
    {b : Tcb} (hstat : b.stat = .ready) (htimer : b.timer = false) :
    ({ w.setTcb t b with
        suspendThread := w.suspendThread.erase t
        resumed := w.resumed ++ [t] } : Waiters Thread).Ok := by
  have hnd := (List.nodup_append.mp h.nodup).1
  have hmem : ∀ u, u ∈ w.suspendThread.erase t ↔ u ≠ t ∧ u ∈ w.suspendThread :=
    fun u => hnd.mem_erase_iff
  refine ⟨?_, fun u => ?_, fun u hu => ?_, fun u hu => ?_⟩
  · have hperm : (w.suspendThread.erase t ++ (w.resumed ++ [t])).Perm
        (w.suspendThread ++ w.resumed) := by
      rw [← List.append_assoc]
      refine (List.perm_append_comm).trans ?_
      exact (List.perm_cons_erase ht).symm.append_right w.resumed
    exact (List.Perm.nodup_iff hperm).mpr h.nodup
  · dsimp only
    rw [hmem]
    by_cases hut : u = t
    · subst hut
      simp [hstat]
    · simp [setTcb_ne w b hut, h.stat u, hut]
  · rw [hmem]
    by_cases hut : u = t
    · subst hut
      simp [htimer] at hu
    · exact ⟨hut, h.timer u (by simpa [setTcb_ne w b hut] using hu)⟩
  · obtain ⟨hut, hin⟩ := (hmem u).mp hu
    simpa [setTcb_ne w b hut] using h.waits u hin

/-- Changes to the control block of a running thread that leave it running. -/
theorem Ok.setTcb {w : Waiters Thread} (h : w.Ok) {t : Thread} (ht : w.Running t) {b : Tcb}
    (hstat : b.stat = .ready) (htimer : b.timer = (w.tcb t).timer) : (w.setTcb t b).Ok where
  nodup := h.nodup
  stat u := by
    by_cases hut : u = t
    · subst hut
      simp [hstat, h.running_notMem ht]
    · simpa [setTcb_ne w b hut] using h.stat u
  timer u hu := by
    by_cases hut : u = t
    · subst hut
      exact h.timer u (by simpa [htimer] using hu)
    · exact h.timer u (by simpa [setTcb_ne w b hut] using hu)
  waits u hu := by
    by_cases hut : u = t
    · subst hut
      exact absurd hu (h.running_notMem ht)
    · simpa [setTcb_ne w b hut] using h.waits u hu

theorem Running.setError {w : Waiters Thread} {t : Thread} (h : w.Running t) (e : Err) :
    (w.setError t e).Running t := ⟨by simpa [Waiters.setError] using h.1, h.2⟩

theorem Ok.setError {w : Waiters Thread} (hw : w.Ok) {t : Thread} (h : w.Running t)
    (e : Err) : (w.setError t e).Ok := hw.setTcb h h.1 rfl

theorem Ok.runAgain {w : Waiters Thread} (h : w.Ok) (t : Thread) : (w.runAgain t).Ok where
  nodup := h.nodup.sublist (List.erase_sublist.append_left w.suspendThread)
  stat := h.stat
  timer := h.timer
  waits := h.waits

/-- A resumed thread that runs again can call. -/
theorem Ok.running_runAgain {w : Waiters Thread} (h : w.Ok) {t : Thread}
    (ht : t ∈ w.resumed) : (w.runAgain t).Running t := by
  obtain ⟨-, hnd, hdisj⟩ := List.nodup_append.mp h.nodup
  refine ⟨?_, fun hmem => (hnd.mem_erase_iff.mp hmem).1 rfl⟩
  cases hs : (w.tcb t).stat with
  | ready => exact hs
  | suspend => exact absurd rfl (hdisj t ((h.stat t).mp hs) t ht)

/-- The error of a waiting thread is clear already. -/
theorem Ok.setError_waiting {w : Waiters Thread} (h : w.Ok) {t : Thread}
    (ht : t ∈ w.suspendThread) : w.setError t .eok = w := by
  have htcb : (fun u => if u = t then { w.tcb t with error := .eok } else w.tcb u) = w.tcb := by
    funext u
    by_cases hut : u = t
    · subst hut
      rw [if_pos rfl, ← h.waits u ht]
    · rw [if_neg hut]
  unfold Waiters.setError Waiters.setTcb
  rw [htcb]

/-! ## The operations on the list -/

theorem rtIpcListSuspend_eq (flag : IpcFlag) (w : Waiters Thread) {t : Thread}
    (ht : w.Running t) : ∃ l, l.Perm (t :: w.suspendThread) ∧
      w.rtIpcListSuspend flag t =
        { w.setTcb t { w.tcb t with stat := .suspend, timer := false } with
          suspendThread := l } := by
  unfold rtIpcListSuspend rtThreadSuspend
  rw [if_neg (not_not_intro ht.1)]
  cases flag with
  | fifo => exact ⟨_, List.perm_append_singleton t w.suspendThread, rfl⟩
  | prio => exact ⟨_, insertPrio_perm _ t w.suspendThread, rfl⟩

theorem Ok.rtIpcListSuspend {w : Waiters Thread} (h : w.Ok) {t : Thread} (ht : w.Running t)
    (herr : (w.tcb t).error = .eok) (flag : IpcFlag) : (w.rtIpcListSuspend flag t).Ok := by
  obtain ⟨l, hl, heq⟩ := w.rtIpcListSuspend_eq flag ht
  rw [heq]
  exact h.suspended ht (b := { w.tcb t with stat := .suspend, timer := false }) rfl herr hl

theorem mem_rtIpcListSuspend (flag : IpcFlag) {w : Waiters Thread} {t : Thread}
    (ht : w.Running t) : t ∈ (w.rtIpcListSuspend flag t).suspendThread := by
  obtain ⟨l, hl, heq⟩ := w.rtIpcListSuspend_eq flag ht
  rw [heq]
  exact hl.mem_iff.mpr List.mem_cons_self

theorem Ok.startTimer {w : Waiters Thread} (h : w.Ok) {t : Thread}
    (ht : t ∈ w.suspendThread) : (w.startTimer t).Ok where
  nodup := h.nodup
  stat u := by
    by_cases hut : u = t
    · subst hut
      simpa [Waiters.startTimer] using h.stat u
    · simpa [Waiters.startTimer, setTcb_ne w _ hut] using h.stat u
  timer u hu := by
    by_cases hut : u = t
    · exact hut ▸ ht
    · exact h.timer u (by simpa [Waiters.startTimer, setTcb_ne w _ hut] using hu)
  waits u hu := by
    by_cases hut : u = t
    · subst hut
      simpa [Waiters.startTimer] using h.waits u hu
    · simpa [Waiters.startTimer, setTcb_ne w _ hut] using h.waits u hu

theorem Ok.rtIpcListResume_cons {w : Waiters Thread} (h : w.Ok) {t : Thread}
    {rest : List Thread} (hl : w.suspendThread = t :: rest) :
    w.rtIpcListResume = { w.setTcb t { w.tcb t with stat := .ready, timer := false } with
      suspendThread := rest
      resumed := w.resumed ++ [t] } := by
  have hstat : (w.tcb t).stat = .suspend := (h.stat t).mpr (hl ▸ List.mem_cons_self)
  unfold Waiters.rtIpcListResume
  rw [hl]
  simp only [rtThreadResume, hstat, ne_eq, not_true_eq_false, if_false, hl,
    List.erase_cons_head]

theorem Ok.rtIpcListResume {w : Waiters Thread} (h : w.Ok) : w.rtIpcListResume.Ok := by
  cases hl : w.suspendThread with
  | nil =>
    unfold Waiters.rtIpcListResume
    rw [hl]
    exact h
  | cons t rest =>
    have := h.readied (t := t) (hl ▸ List.mem_cons_self)
      (b := { w.tcb t with stat := .ready, timer := false }) rfl rfl
    rwa [h.rtIpcListResume_cons hl, ← List.erase_cons_head t rest, ← hl]

theorem Ok.rtThreadTimeout {w : Waiters Thread} (h : w.Ok) {t : Thread}
    (ht : t ∈ w.suspendThread) : (w.rtThreadTimeout t).Ok :=
  h.readied ht rfl rfl

theorem changePriority_tcb (w : Waiters Thread) (t u : Thread) (priority : Nat) :
    ((w.changePriority t priority).tcb u).stat = (w.tcb u).stat ∧
      ((w.changePriority t priority).tcb u).error = (w.tcb u).error ∧
      ((w.changePriority t priority).tcb u).timer = (w.tcb u).timer := by
  by_cases hut : u = t
  · subst hut
    simp [changePriority]
  · simp [changePriority, setTcb_ne w _ hut]

/-- No list is sorted anew when a priority changes. -/
theorem Ok.changePriority {w : Waiters Thread} (h : w.Ok) (t : Thread) (priority : Nat) :
    (w.changePriority t priority).Ok where
  nodup := h.nodup
  stat u := (w.changePriority_tcb t u priority).1 ▸ h.stat u
  timer u hu := h.timer u ((w.changePriority_tcb t u priority).2.2 ▸ hu)
  waits u hu := (w.changePriority_tcb t u priority).2.1 ▸ h.waits u hu

theorem length_rtThreadTimeout {w : Waiters Thread} {t : Thread}
    (ht : t ∈ w.suspendThread) :
    (w.rtThreadTimeout t).suspendThread.length + 1 = w.suspendThread.length := by
  have hpos := List.length_pos_of_mem ht
  have hlen := List.length_erase_of_mem ht
  simp only [Waiters.rtThreadTimeout]
  omega

/-! ## Waits that have ended well -/

/-- The resumed threads whose wait was not ended by a timer. -/
def handedOver (w : Waiters Thread) : List Thread :=
  w.resumed.filter fun t => (w.tcb t).error = .eok

omit [DecidableEq Thread] in
theorem mem_handedOver (w : Waiters Thread) {t : Thread} (ht : t ∈ w.resumed) :
    t ∈ w.handedOver ↔ (w.tcb t).error = .eok := by
  simp [handedOver, ht]

omit [DecidableEq Thread] in
theorem handedOver_congr {v w : Waiters Thread} (hr : v.resumed = w.resumed)
    (he : ∀ t ∈ w.resumed, (v.tcb t).error = (w.tcb t).error) :
    v.handedOver = w.handedOver := by
  unfold handedOver
  rw [hr]
  exact List.filter_congr fun t ht => by rw [he t ht]

/-- The control block of a thread that is not among the resumed ones does not count. -/
theorem handedOver_setTcb (w : Waiters Thread) {t : Thread} (ht : t ∉ w.resumed) (b : Tcb) :
    (w.setTcb t b).handedOver = w.handedOver :=
  handedOver_congr rfl fun u hu => by
    rw [setTcb_ne w b (ne_of_mem_of_not_mem hu ht)]

theorem handedOver_setError {w : Waiters Thread} {t : Thread} (h : w.Running t) (e : Err) :
    (w.setError t e).handedOver = w.handedOver := w.handedOver_setTcb h.2 _

theorem handedOver_changePriority (w : Waiters Thread) (t : Thread) (priority : Nat) :
    (w.changePriority t priority).handedOver = w.handedOver :=
  handedOver_congr rfl fun u _ => (w.changePriority_tcb t u priority).2.1

omit [DecidableEq Thread] in
theorem Ok.notMem_resumed {w : Waiters Thread} (h : w.Ok) {t : Thread}
    (ht : t ∈ w.suspendThread) : t ∉ w.resumed := fun hr =>
  (List.nodup_append.mp h.nodup).2.2 t ht t hr rfl

theorem handedOver_rtIpcListSuspend (flag : IpcFlag) {w : Waiters Thread} {t : Thread}
    (ht : w.Running t) : (w.rtIpcListSuspend flag t).handedOver = w.handedOver := by
  obtain ⟨l, -, heq⟩ := w.rtIpcListSuspend_eq flag ht
  rw [heq]
  exact w.handedOver_setTcb ht.2 _

theorem handedOver_readied {w : Waiters Thread} {t : Thread} (ht : t ∉ w.resumed) (b : Tcb)
    (l : List Thread) :
    ({ w.setTcb t b with suspendThread := l, resumed := w.resumed ++ [t] } :
      Waiters Thread).handedOver = w.handedOver ++ if b.error = .eok then [t] else [] := by
  have hold := w.handedOver_setTcb ht b
  unfold handedOver at hold ⊢
  simp only [List.filter_append, setTcb_resumed] at hold ⊢
  rw [hold]
  by_cases hb : b.error = .eok <;> simp [hb]

theorem Ok.handedOver_rtIpcListResume {w : Waiters Thread} (h : w.Ok) {t : Thread}
    {rest : List Thread} (hl : w.suspendThread = t :: rest) :
    w.rtIpcListResume.handedOver = w.handedOver ++ [t] := by
  have hmem : t ∈ w.suspendThread := hl ▸ List.mem_cons_self
  rw [h.rtIpcListResume_cons hl, handedOver_readied (h.notMem_resumed hmem)]
  simp [h.waits t hmem]

theorem Ok.handedOver_rtThreadTimeout {w : Waiters Thread} (h : w.Ok) {t : Thread}
    (ht : t ∈ w.suspendThread) : (w.rtThreadTimeout t).handedOver = w.handedOver := by
  unfold Waiters.rtThreadTimeout
  rw [handedOver_readied (h.notMem_resumed ht)]
  simp

theorem Ok.handedOver_runAgain {w : Waiters Thread} (h : w.Ok) (t : Thread) :
    (w.runAgain t).handedOver = w.handedOver.erase t := by
  have hnd := (List.nodup_append.mp h.nodup).2.1
  unfold handedOver Waiters.runAgain
  dsimp only
  rw [hnd.erase_eq_filter, (hnd.sublist List.filter_sublist).erase_eq_filter,
    List.filter_filter, List.filter_filter]
  exact List.filter_congr fun u _ => Bool.and_comm _ _

end Waiters

end ControlRTT.Kernel.Thread

import ControlRTT.Kernel.Thread

/-! # Threads that wait on several objects

The wait lists of any number of IPC objects and the control blocks of their threads
(thread.c, the first part of ipc.c), as `Waiters` has them for one object. A thread is on
one list at most. `resumed` are the threads made ready by a resume or their timers that
have not run again since. -/
namespace ControlRTT.Kernel.Thread

structure WaitLists (Obj Thread : Type) where
  tcb : Thread → Tcb
  list : Obj → List Thread := fun _ => []
  resumed : List Thread := []

/-- The waiting time that is left when a call comes back from `rt_schedule`, `elapsed` ticks
later by the tick counter. -/
def timeLeft (timeout : Int) (elapsed : BitVec 32) : Int :=
  if timeout > 0 then max (BitVec.ofInt 32 timeout - elapsed).toInt 0 else timeout

namespace WaitLists
variable {Obj Thread : Type} [DecidableEq Obj] [DecidableEq Thread]

/-- All threads ready, none waiting. -/
def idle (priority : Thread → Nat) : WaitLists Obj Thread where
  tcb t := { currentPriority := priority t }

def setTcb (w : WaitLists Obj Thread) (t : Thread) (b : Tcb) : WaitLists Obj Thread :=
  { w with tcb := fun u => if u = t then b else w.tcb u }

def setError (w : WaitLists Obj Thread) (t : Thread) (e : Err) : WaitLists Obj Thread :=
  w.setTcb t { w.tcb t with error := e }

def setList (w : WaitLists Obj Thread) (o : Obj) (l : List Thread) : WaitLists Obj Thread :=
  { w with list := fun o' => if o' = o then l else w.list o' }

def rtThreadSuspend (w : WaitLists Obj Thread) (t : Thread) : WaitLists Obj Thread :=
  if (w.tcb t).stat ≠ .ready then w
  else w.setTcb t { w.tcb t with stat := .suspend, timer := false }

/-- The place of a thread in a list, by the flag of its object. -/
def insertByFlag (flag : IpcFlag) (tcb : Thread → Tcb) (t : Thread) (l : List Thread) :
    List Thread :=
  match flag with
  | .fifo => l ++ [t]
  | .prio => Waiters.insertPrio tcb t l

def rtIpcListSuspend (w : WaitLists Obj Thread) (o : Obj) (flag : IpcFlag) (t : Thread) :
    WaitLists Obj Thread :=
  (w.rtThreadSuspend t).setList o
    (insertByFlag flag (w.rtThreadSuspend t).tcb t ((w.rtThreadSuspend t).list o))

/-- `rt_timer_start` on the thread's own timer, if the call has a waiting time. -/
def startTimer (w : WaitLists Obj Thread) (t : Thread) (time : Int) : WaitLists Obj Thread :=
  if time > 0 then w.setTcb t { w.tcb t with timer := true } else w

/-- A thread leaves its list, whatever list that is, and is ready. -/
def readied (w : WaitLists Obj Thread) (t : Thread) (e : Err) : WaitLists Obj Thread :=
  { w.setTcb t { w.tcb t with stat := .ready, error := e, timer := false } with
    list := fun o => (w.list o).erase t
    resumed := w.resumed ++ [t] }

def rtThreadResume (w : WaitLists Obj Thread) (t : Thread) : WaitLists Obj Thread :=
  if (w.tcb t).stat ≠ .suspend then w else w.readied t (w.tcb t).error

/-- The first thread of the list is resumed. The callers have found the list not empty. -/
def rtIpcListResume (w : WaitLists Obj Thread) (o : Obj) : WaitLists Obj Thread :=
  match w.list o with
  | [] => w
  | t :: _ => w.rtThreadResume t

/-- The turns of `rt_ipc_list_resume_all`: each takes the first of the threads that are
left. -/
def resumeEach (w : WaitLists Obj Thread) : List Thread → WaitLists Obj Thread
  | [] => w
  | t :: rest => ((w.setError t .error).rtThreadResume t).resumeEach rest

def rtIpcListResumeAll (w : WaitLists Obj Thread) (o : Obj) : WaitLists Obj Thread :=
  w.resumeEach (w.list o)

/-- The thread's timer, which does not repeat, has fired. -/
def rtThreadTimeout (w : WaitLists Obj Thread) (t : Thread) : WaitLists Obj Thread :=
  w.readied t .etimeout

/-- `rt_thread_control` with `RT_THREAD_CTRL_CHANGE_PRIORITY`: no list is sorted anew. -/
def changePriority (w : WaitLists Obj Thread) (t : Thread) (priority : Nat) :
    WaitLists Obj Thread :=
  w.setTcb t { w.tcb t with currentPriority := priority }

/-- A resumed thread runs again, behind its `rt_schedule`. -/
def runAgain (w : WaitLists Obj Thread) (t : Thread) : WaitLists Obj Thread :=
  { w with resumed := w.resumed.erase t }

/-- The thread can call: it is ready and not inside a call. -/
def Running (w : WaitLists Obj Thread) (t : Thread) : Prop :=
  (w.tcb t).stat = .ready ∧ t ∉ w.resumed

instance (w : WaitLists Obj Thread) (t : Thread) : Decidable (w.Running t) :=
  inferInstanceAs (Decidable (_ ∧ _))

/-! ## What every step keeps -/

/-- The suspended threads are on the lists, each once and on one list, and only they can
time out. -/
structure Ok (w : WaitLists Obj Thread) : Prop where
  nodup : ∀ o, (w.list o).Nodup
  one : ∀ t o o', t ∈ w.list o → t ∈ w.list o' → o = o'
  stat : ∀ t, (w.tcb t).stat = .suspend ↔ ∃ o, t ∈ w.list o
  timer : ∀ t, (w.tcb t).timer = true → (w.tcb t).stat = .suspend
  waits : ∀ t, (w.tcb t).stat = .suspend → (w.tcb t).error = .eok
  resumed : w.resumed.Nodup ∧ ∀ t ∈ w.resumed, (w.tcb t).stat = .ready

omit [DecidableEq Obj] [DecidableEq Thread] in
theorem ok_idle (priority : Thread → Nat) : (idle priority : WaitLists Obj Thread).Ok where
  nodup _ := .nil
  one _ _ _ h := by cases h
  stat _ := ⟨fun h => (by cases h), fun ⟨_, h⟩ => (by cases h)⟩
  timer _ h := by cases h
  waits _ h := by cases h
  resumed := ⟨.nil, fun _ h => (by cases h)⟩

omit [DecidableEq Obj] in
@[simp] theorem setTcb_self (w : WaitLists Obj Thread) (t : Thread) (b : Tcb) :
    (w.setTcb t b).tcb t = b := if_pos rfl

omit [DecidableEq Obj] in
theorem setTcb_ne (w : WaitLists Obj Thread) {t u : Thread} (b : Tcb) (h : u ≠ t) :
    (w.setTcb t b).tcb u = w.tcb u := if_neg h

omit [DecidableEq Obj] in
@[simp] theorem setTcb_setTcb (w : WaitLists Obj Thread) (t : Thread) (b b' : Tcb) :
    (w.setTcb t b).setTcb t b' = w.setTcb t b' := by
  unfold setTcb
  dsimp only
  congr 1
  funext u
  by_cases hut : u = t
  · rw [if_pos hut, if_pos hut]
  · rw [if_neg hut, if_neg hut, if_neg hut]

omit [DecidableEq Obj] in
@[simp] theorem setTcb_list (w : WaitLists Obj Thread) (t : Thread) (b : Tcb) :
    (w.setTcb t b).list = w.list := rfl

omit [DecidableEq Obj] in
@[simp] theorem setTcb_resumed (w : WaitLists Obj Thread) (t : Thread) (b : Tcb) :
    (w.setTcb t b).resumed = w.resumed := rfl

omit [DecidableEq Obj] [DecidableEq Thread] in
theorem Ok.ready_notMem {w : WaitLists Obj Thread} (h : w.Ok) {t : Thread}
    (ht : (w.tcb t).stat = .ready) (o : Obj) : t ∉ w.list o := fun hmem => by
  have := (h.stat t).mpr ⟨o, hmem⟩
  rw [ht] at this
  cases this

omit [DecidableEq Obj] in
/-- Changes to a control block that leave the thread where it is. -/
theorem Ok.setTcb {w : WaitLists Obj Thread} (h : w.Ok) {t : Thread} {b : Tcb}
    (hstat : b.stat = (w.tcb t).stat) (htimer : b.timer = true → b.stat = .suspend)
    (herr : b.stat = .suspend → b.error = .eok) : (w.setTcb t b).Ok := by
  have hsame : ∀ u, ((w.setTcb t b).tcb u).stat = (w.tcb u).stat := by
    intro u
    by_cases hut : u = t
    · subst hut
      rw [setTcb_self, hstat]
    · rw [setTcb_ne w b hut]
  refine ⟨h.nodup, h.one, fun u => hsame u ▸ h.stat u, fun u hu => ?_, fun u hu => ?_,
    h.resumed.1, fun u hu => (hsame u).trans (h.resumed.2 u hu)⟩
  · by_cases hut : u = t
    · subst hut
      rw [setTcb_self] at hu ⊢
      exact htimer hu
    · rw [setTcb_ne w b hut] at hu ⊢
      exact h.timer u hu
  · by_cases hut : u = t
    · subst hut
      rw [setTcb_self] at hu ⊢
      exact herr hu
    · rw [setTcb_ne w b hut] at hu ⊢
      exact h.waits u hu

omit [DecidableEq Obj] in
theorem Ok.setError {w : WaitLists Obj Thread} (h : w.Ok) {t : Thread}
    (ht : (w.tcb t).stat = .ready) (e : Err) : (w.setError t e).Ok :=
  h.setTcb rfl (h.timer t) fun hs => by rw [ht] at hs; cases hs

omit [DecidableEq Obj] in
theorem Ok.changePriority {w : WaitLists Obj Thread} (h : w.Ok) (t : Thread)
    (priority : Nat) : (w.changePriority t priority).Ok :=
  h.setTcb rfl (h.timer t) (h.waits t)

omit [DecidableEq Obj] in
theorem Ok.startTimer {w : WaitLists Obj Thread} (h : w.Ok) {t : Thread}
    (ht : (w.tcb t).stat = .suspend) (time : Int) : (w.startTimer t time).Ok := by
  unfold WaitLists.startTimer
  split
  · exact h.setTcb rfl (fun _ => ht) (h.waits t)
  · exact h

omit [DecidableEq Obj] in
theorem Ok.runAgain {w : WaitLists Obj Thread} (h : w.Ok) (t : Thread) : (w.runAgain t).Ok where
  nodup := h.nodup
  one := h.one
  stat := h.stat
  timer := h.timer
  waits := h.waits
  resumed := ⟨h.resumed.1.erase t, fun u hu => h.resumed.2 u (List.mem_of_mem_erase hu)⟩

omit [DecidableEq Obj] in
theorem Ok.mem_readied {w : WaitLists Obj Thread} (h : w.Ok) (t : Thread) (e : Err) (o : Obj)
    (u : Thread) : u ∈ (w.readied t e).list o ↔ u ≠ t ∧ u ∈ w.list o :=
  (h.nodup o).mem_erase_iff

omit [DecidableEq Obj] in
/-- A waiting thread becomes ready, whatever its error. -/
theorem Ok.readied {w : WaitLists Obj Thread} (h : w.Ok) {t : Thread}
    (ht : (w.tcb t).stat = .suspend) (e : Err) : (w.readied t e).Ok := by
  have hne : ∀ u, u ≠ t → (w.readied t e).tcb u = w.tcb u := fun u hut => if_neg hut
  have hself : (w.readied t e).tcb t =
      { w.tcb t with stat := .ready, error := e, timer := false } := if_pos rfl
  have hnot : t ∉ w.resumed := fun hmem => by
    have := h.resumed.2 t hmem
    rw [ht] at this
    cases this
  refine ⟨fun o => (h.nodup o).erase t, fun u o o' hu hu' => ?_, fun u => ?_, fun u hu => ?_,
    fun u hu => ?_, ?_, fun u hu => ?_⟩
  · exact h.one u o o' ((h.mem_readied t e o u).mp hu).2 ((h.mem_readied t e o' u).mp hu').2
  · simp only [h.mem_readied]
    by_cases hut : u = t
    · subst hut
      simp [hself]
    · simp [hne u hut, h.stat u, hut]
  · by_cases hut : u = t
    · subst hut
      rw [hself] at hu
      cases hu
    · rw [hne u hut] at hu ⊢
      exact h.timer u hu
  · by_cases hut : u = t
    · subst hut
      rw [hself] at hu
      cases hu
    · rw [hne u hut] at hu ⊢
      exact h.waits u hu
  · refine List.nodup_append.mpr ⟨h.resumed.1, List.pairwise_singleton _ t, fun u hu v hv => ?_⟩
    rw [List.mem_singleton.mp hv]
    exact ne_of_mem_of_not_mem hu hnot
  · obtain hu | hu := List.mem_append.mp hu
    · rw [hne u (ne_of_mem_of_not_mem hu hnot)]
      exact h.resumed.2 u hu
    · rw [List.mem_singleton.mp hu, hself]

omit [DecidableEq Obj] in
theorem Ok.rtThreadResume {w : WaitLists Obj Thread} (h : w.Ok) (t : Thread) :
    (w.rtThreadResume t).Ok := by
  unfold WaitLists.rtThreadResume
  split
  · exact h
  · rename_i ht
    exact h.readied (not_not.mp ht) _

omit [DecidableEq Obj] in
theorem Ok.rtIpcListResume_cons {w : WaitLists Obj Thread} (h : w.Ok) {o : Obj} {t : Thread}
    {rest : List Thread} (hl : w.list o = t :: rest) :
    w.rtIpcListResume o = w.readied t .eok := by
  have ht : (w.tcb t).stat = .suspend := (h.stat t).mpr ⟨o, hl ▸ List.mem_cons_self⟩
  unfold WaitLists.rtIpcListResume WaitLists.rtThreadResume
  rw [hl]
  dsimp only
  rw [if_neg (not_not_intro ht), h.waits t ht]

omit [DecidableEq Obj] in
/-- A waiting thread whose wait ends with an error, or with none. -/
theorem Ok.setError_rtThreadResume {w : WaitLists Obj Thread} {t : Thread}
    (ht : (w.tcb t).stat = .suspend) (e : Err) :
    (w.setError t e).rtThreadResume t = w.readied t e := by
  unfold WaitLists.rtThreadResume WaitLists.readied WaitLists.setError
  rw [setTcb_self, if_neg (not_not_intro ht)]
  simp only [setTcb_setTcb, setTcb_list, setTcb_resumed]

omit [DecidableEq Obj] in
theorem Ok.rtThreadResume_eq {w : WaitLists Obj Thread} (h : w.Ok) {t : Thread}
    (ht : (w.tcb t).stat = .suspend) : w.rtThreadResume t = w.readied t .eok := by
  rw [WaitLists.rtThreadResume, if_neg (not_not_intro ht), h.waits t ht]

omit [DecidableEq Obj] in
/-- A resumed thread has left its list with an error. -/
theorem Ok.resumeEach {w : WaitLists Obj Thread} (h : w.Ok) {l : List Thread}
    (hnodup : l.Nodup) (hl : ∀ t ∈ l, (w.tcb t).stat = .suspend) :
    (w.resumeEach l).Ok ∧
      (∀ o u, u ∈ (w.resumeEach l).list o ↔ u ∉ l ∧ u ∈ w.list o) ∧
      (∀ u, u ∈ (w.resumeEach l).resumed ↔ u ∈ w.resumed ∨ u ∈ l) ∧
      (∀ u ∈ l, ((w.resumeEach l).tcb u).error = .error) ∧
      ∀ u ∉ l, (w.resumeEach l).tcb u = w.tcb u := by
  induction l generalizing w with
  | nil => simp [WaitLists.resumeEach, h]
  | cons t rest ih =>
    obtain ⟨hnot, hrest⟩ := List.nodup_cons.mp hnodup
    have ht := hl t List.mem_cons_self
    rw [WaitLists.resumeEach, Ok.setError_rtThreadResume ht]
    have hne : ∀ u, u ≠ t → (w.readied t .error).tcb u = w.tcb u := fun u hut => if_neg hut
    obtain ⟨hok, hmem, hres, herr, hsame⟩ := ih (h.readied ht .error) hrest fun u hu => by
      rw [hne u (ne_of_mem_of_not_mem hu hnot)]
      exact hl u (List.mem_cons_of_mem t hu)
    refine ⟨hok, fun o u => ?_, fun u => ?_, fun u hu => ?_, fun u hu => ?_⟩
    · rw [hmem, h.mem_readied, List.mem_cons, not_or]
      exact ⟨fun ⟨hr, ht, hu⟩ => ⟨⟨ht, hr⟩, hu⟩, fun ⟨⟨ht, hr⟩, hu⟩ => ⟨hr, ht, hu⟩⟩
    · rw [hres, List.mem_cons]
      refine (or_congr_left (List.mem_append.trans (or_congr_right List.mem_singleton))).trans ?_
      exact or_assoc
    · obtain rfl | hu := List.mem_cons.mp hu
      · rw [hsame u hnot]
        exact congrArg Tcb.error (if_pos rfl)
      · exact herr u hu
    · rw [List.mem_cons, not_or] at hu
      rw [hsame u hu.2, hne u hu.1]

omit [DecidableEq Obj] in
theorem Ok.rtIpcListResume {w : WaitLists Obj Thread} (h : w.Ok) (o : Obj) :
    (w.rtIpcListResume o).Ok := by
  unfold WaitLists.rtIpcListResume
  split
  · exact h
  · exact h.rtThreadResume _

omit [DecidableEq Obj] in
theorem Ok.rtThreadTimeout {w : WaitLists Obj Thread} (h : w.Ok) {t : Thread}
    (ht : (w.tcb t).timer = true) : (w.rtThreadTimeout t).Ok := h.readied (h.timer t ht) _

omit [DecidableEq Thread] in
theorem insertByFlag_perm (flag : IpcFlag) (tcb : Thread → Tcb) (t : Thread)
    (l : List Thread) : (insertByFlag flag tcb t l).Perm (t :: l) := by
  cases flag with
  | fifo => exact List.perm_append_singleton t l
  | prio => exact Waiters.insertPrio_perm tcb t l

/-- A running thread whose error is clear goes to a list. -/
theorem rtIpcListSuspend_eq {w : WaitLists Obj Thread} {t : Thread}
    (ht : (w.tcb t).stat = .ready) (o : Obj) (flag : IpcFlag) :
    w.rtIpcListSuspend o flag t =
      (w.setTcb t { w.tcb t with stat := .suspend, timer := false }).setList o
        (insertByFlag flag (w.setTcb t { w.tcb t with stat := .suspend, timer := false }).tcb t
          (w.list o)) := by
  unfold rtIpcListSuspend rtThreadSuspend
  rw [if_neg (not_not_intro ht)]
  rfl

theorem mem_rtIpcListSuspend {w : WaitLists Obj Thread} {t : Thread}
    (ht : (w.tcb t).stat = .ready) (o : Obj) (flag : IpcFlag) (o' : Obj) (u : Thread) :
    u ∈ (w.rtIpcListSuspend o flag t).list o' ↔ (u = t ∧ o' = o) ∨ u ∈ w.list o' := by
  rw [rtIpcListSuspend_eq ht]
  unfold setList
  dsimp only
  split
  · rename_i ho
    subst ho
    rw [(insertByFlag_perm _ _ _ _).mem_iff, List.mem_cons]
    simp
  · rename_i ho
    simp [ho]

theorem tcb_rtIpcListSuspend_ne {w : WaitLists Obj Thread} {t u : Thread}
    (ht : (w.tcb t).stat = .ready) (o : Obj) (flag : IpcFlag) (hut : u ≠ t) :
    (w.rtIpcListSuspend o flag t).tcb u = w.tcb u := by
  rw [rtIpcListSuspend_eq ht]
  exact setTcb_ne w _ hut

theorem resumed_rtIpcListSuspend {w : WaitLists Obj Thread} {t : Thread}
    (ht : (w.tcb t).stat = .ready) (o : Obj) (flag : IpcFlag) :
    (w.rtIpcListSuspend o flag t).resumed = w.resumed := by
  rw [rtIpcListSuspend_eq ht]
  rfl

omit [DecidableEq Obj] in
theorem tcb_startTimer_ne (w : WaitLists Obj Thread) {t u : Thread} (time : Int)
    (hut : u ≠ t) : (w.startTimer t time).tcb u = w.tcb u := by
  unfold startTimer
  split
  · exact setTcb_ne w _ hut
  · rfl

omit [DecidableEq Obj] in
@[simp] theorem resumed_startTimer (w : WaitLists Obj Thread) (t : Thread) (time : Int) :
    (w.startTimer t time).resumed = w.resumed := by
  unfold startTimer
  split
  · rfl
  · rfl

omit [DecidableEq Obj] in
@[simp] theorem list_startTimer (w : WaitLists Obj Thread) (t : Thread) (time : Int) :
    (w.startTimer t time).list = w.list := by
  unfold startTimer
  split
  · rfl
  · rfl

theorem Ok.rtIpcListSuspend {w : WaitLists Obj Thread} (h : w.Ok) {t : Thread}
    (ht : w.Running t) (herr : (w.tcb t).error = .eok) (o : Obj) (flag : IpcFlag) :
    (w.rtIpcListSuspend o flag t).Ok := by
  have hmem := fun o' u => mem_rtIpcListSuspend ht.1 o flag o' u
  have hnot := h.ready_notMem ht.1
  have heq := rtIpcListSuspend_eq ht.1 o flag
  have hself : (w.rtIpcListSuspend o flag t).tcb t =
      { w.tcb t with stat := .suspend, timer := false } := by
    rw [heq]
    exact setTcb_self _ _ _
  have hne := fun u (hut : u ≠ t) => tcb_rtIpcListSuspend_ne ht.1 o flag hut
  refine ⟨fun o' => ?_, fun u o₁ o₂ h₁ h₂ => ?_, fun u => ?_, fun u hu => ?_, fun u hu => ?_, ?_⟩
  · rw [heq]
    unfold setList
    dsimp only
    split
    · refine (insertByFlag_perm _ _ _ _).nodup_iff.mpr (List.nodup_cons.mpr ⟨hnot o, h.nodup o⟩)
    · exact h.nodup o'
  · obtain ⟨hu₁, ho₁⟩ | h₁ := (hmem o₁ u).mp h₁
    · obtain ⟨-, ho₂⟩ | h₂ := (hmem o₂ u).mp h₂
      · exact ho₁.trans ho₂.symm
      · exact absurd (hu₁ ▸ h₂) (hnot o₂)
    · obtain ⟨hu₂, -⟩ | h₂ := (hmem o₂ u).mp h₂
      · exact absurd (hu₂ ▸ h₁) (hnot o₁)
      · exact h.one u o₁ o₂ h₁ h₂
  · by_cases hut : u = t
    · subst hut
      rw [hself]
      exact ⟨fun _ => ⟨o, (hmem o u).mpr (.inl ⟨rfl, rfl⟩)⟩, fun _ => rfl⟩
    · rw [hne u hut, h.stat u]
      exact exists_congr fun o' => by simp [hmem, hut]
  · by_cases hut : u = t
    · subst hut
      rw [hself]
    · rw [hne u hut] at hu ⊢
      exact h.timer u hu
  · by_cases hut : u = t
    · subst hut
      rw [hself]
      exact herr
    · rw [hne u hut] at hu ⊢
      exact h.waits u hu
  · rw [resumed_rtIpcListSuspend ht.1]
    refine ⟨h.resumed.1, fun u hu => ?_⟩
    rw [hne u fun hut => ht.2 (hut ▸ hu)]
    exact h.resumed.2 u hu

/-! ## Priorities -/

def priority (w : WaitLists Obj Thread) (t : Thread) : Nat := (w.tcb t).currentPriority

omit [DecidableEq Obj] in
theorem priority_setTcb (w : WaitLists Obj Thread) {t : Thread} {b : Tcb}
    (hb : b.currentPriority = w.priority t) (u : Thread) :
    (w.setTcb t b).priority u = w.priority u := by
  unfold priority
  by_cases hut : u = t
  · subst hut
    rw [setTcb_self, hb]
    rfl
  · rw [setTcb_ne w b hut]

omit [DecidableEq Obj] in
@[simp] theorem priority_setError (w : WaitLists Obj Thread) (t : Thread) (e : Err)
    (u : Thread) : (w.setError t e).priority u = w.priority u :=
  priority_setTcb w (by rfl) u

omit [DecidableEq Obj] in
@[simp] theorem priority_startTimer (w : WaitLists Obj Thread) (t : Thread) (time : Int)
    (u : Thread) : (w.startTimer t time).priority u = w.priority u := by
  unfold startTimer
  split
  · exact priority_setTcb w (by rfl) u
  · rfl

omit [DecidableEq Obj] in
@[simp] theorem priority_readied (w : WaitLists Obj Thread) (t : Thread) (e : Err)
    (u : Thread) : (w.readied t e).priority u = w.priority u :=
  priority_setTcb w (t := t) (by rfl) u

omit [DecidableEq Obj] in
@[simp] theorem priority_rtThreadResume (w : WaitLists Obj Thread) (t u : Thread) :
    (w.rtThreadResume t).priority u = w.priority u := by
  unfold rtThreadResume
  split
  · rfl
  · exact priority_readied w t _ u

omit [DecidableEq Obj] in
@[simp] theorem priority_rtIpcListResume (w : WaitLists Obj Thread) (o : Obj) (u : Thread) :
    (w.rtIpcListResume o).priority u = w.priority u := by
  unfold rtIpcListResume
  split
  · rfl
  · exact priority_rtThreadResume w _ u

@[simp] theorem priority_rtIpcListSuspend (w : WaitLists Obj Thread) (o : Obj) (flag : IpcFlag)
    (t u : Thread) : (w.rtIpcListSuspend o flag t).priority u = w.priority u := by
  have hsusp : (w.rtThreadSuspend t).priority u = w.priority u := by
    unfold rtThreadSuspend
    split
    · rfl
    · exact priority_setTcb w (by rfl) u
  exact hsusp

omit [DecidableEq Obj] in
theorem priority_changePriority_self (w : WaitLists Obj Thread) (t : Thread) (p : Nat) :
    (w.changePriority t p).priority t = p := by
  rw [priority, changePriority, setTcb_self]

omit [DecidableEq Obj] in
theorem priority_changePriority_ne (w : WaitLists Obj Thread) {t u : Thread} (p : Nat)
    (h : u ≠ t) : (w.changePriority t p).priority u = w.priority u := by
  rw [priority, changePriority, setTcb_ne w _ h]
  rfl

end WaitLists

end ControlRTT.Kernel.Thread

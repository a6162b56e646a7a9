import ControlRTT.Lib.KeyOrder
import ControlRTT.Kernel.MutexSystem

/-! # Wait lists in the order of priorities (ipc.c, thread.c)

A thread goes to its place on a list of an object with `RT_IPC_FLAG_PRIO` when it
starts to wait, and stays there: a new priority, explicit or inherited, does not move it.
So the lists are in order throughout exactly the runs whose new priorities leave the
waiting threads in their places (`ordered_throughout_iff`). -/
namespace ControlRTT.Kernel.WaitOrder
open ControlRTT.Lib.Runs ControlRTT.Lib.KeyOrder ControlRTT.Kernel.Thread
  ControlRTT.Kernel.MutexSystem

/-! ## Lists -/

section Lists
variable {Obj Thread : Type} [DecidableEq Obj] [DecidableEq Thread]

def InOrder (flag : Obj → IpcFlag) (w : WaitLists Obj Thread) : Prop :=
  ∀ o, flag o = .prio → Sorted w.priority (w.list o)

omit [DecidableEq Thread] in
theorem insertPrio_eq (tcb : Thread → Tcb) (t : Thread) (l : List Thread) :
    Waiters.insertPrio tcb t l = insertBy (fun u => (tcb u).currentPriority) t l := by
  induction l with
  | nil => rfl
  | cons u rest ih => rw [Waiters.insertPrio, insertBy, ih]

omit [DecidableEq Obj] [DecidableEq Thread] in
/-- Neither the lists nor the priorities change. -/
theorem inOrder_congr {flag : Obj → IpcFlag} {w w' : WaitLists Obj Thread}
    (hlist : ∀ o, w'.list o = w.list o) (hprio : ∀ t, w'.priority t = w.priority t) :
    InOrder flag w' ↔ InOrder flag w := by
  unfold InOrder
  rw [funext hprio, funext hlist]

omit [DecidableEq Obj] [DecidableEq Thread] in
/-- Threads leave their lists. -/
theorem InOrder.sublist {flag : Obj → IpcFlag} {w w' : WaitLists Obj Thread}
    (h : InOrder flag w) (hlist : ∀ o, (w'.list o).Sublist (w.list o))
    (hprio : ∀ t, w'.priority t = w.priority t) : InOrder flag w' := by
  intro o ho
  rw [funext hprio]
  exact (h o ho).sublist (hlist o)

omit [DecidableEq Obj] in
theorem inOrder_setError {flag : Obj → IpcFlag} (w : WaitLists Obj Thread) (t : Thread)
    (e : Err) : InOrder flag (w.setError t e) ↔ InOrder flag w :=
  inOrder_congr (fun _ => rfl) (WaitLists.priority_setError w t e)

omit [DecidableEq Obj] in
theorem inOrder_startTimer {flag : Obj → IpcFlag} (w : WaitLists Obj Thread) (t : Thread)
    (time : Int) : InOrder flag (w.startTimer t time) ↔ InOrder flag w :=
  inOrder_congr (fun _ => by rw [WaitLists.list_startTimer])
    (WaitLists.priority_startTimer w t time)

omit [DecidableEq Obj] in
theorem InOrder.readied {flag : Obj → IpcFlag} {w : WaitLists Obj Thread}
    (h : InOrder flag w) (t : Thread) (e : Err) : InOrder flag (w.readied t e) :=
  h.sublist (fun _ => List.erase_sublist) (WaitLists.priority_readied w t e)

omit [DecidableEq Obj] in
theorem InOrder.rtThreadResume {flag : Obj → IpcFlag} {w : WaitLists Obj Thread}
    (h : InOrder flag w) (t : Thread) : InOrder flag (w.rtThreadResume t) := by
  unfold WaitLists.rtThreadResume
  split
  · exact h
  · exact h.readied t _

omit [DecidableEq Obj] in
theorem InOrder.rtIpcListResume {flag : Obj → IpcFlag} {w : WaitLists Obj Thread}
    (h : InOrder flag w) (o : Obj) : InOrder flag (w.rtIpcListResume o) := by
  unfold WaitLists.rtIpcListResume
  split
  · exact h
  · exact h.rtThreadResume _

omit [DecidableEq Obj] in
theorem inOrder_changePriority_iff {flag : Obj → IpcFlag} {w : WaitLists Obj Thread}
    (hok : w.Ok) (h : InOrder flag w) (t : Thread) (p : Nat) :
    InOrder flag (w.changePriority t p) ↔
      ∀ o, flag o = .prio → Stays w.priority (w.list o) t p := by
  have hkey : (w.changePriority t p).priority = setKey w.priority t p := by
    funext u
    by_cases hut : u = t
    · rw [hut, setKey_self, WaitLists.priority_changePriority_self]
    · rw [setKey_ne _ _ hut, WaitLists.priority_changePriority_ne w p hut]
  refine forall_congr' fun o => forall_congr' fun ho => ?_
  rw [hkey]
  exact sorted_setKey_iff (hok.nodup o) (h o ho) t p

/-- A thread that starts to wait goes to its place. -/
theorem inOrder_rtIpcListSuspend {flag : Obj → IpcFlag} {w : WaitLists Obj Thread} {t : Thread}
    (ht : (w.tcb t).stat = .ready) (o : Obj) :
    InOrder flag (w.rtIpcListSuspend o (flag o) t) ↔ InOrder flag w := by
  have hlist : ∀ o', flag o' = .prio →
      (w.rtIpcListSuspend o (flag o) t).list o' =
        if o' = o then insertBy w.priority t (w.list o') else w.list o' := by
    intro o' ho'
    rw [WaitLists.rtIpcListSuspend_eq ht]
    by_cases ho : o' = o
    · subst ho
      rw [if_pos rfl, ho']
      refine (if_pos rfl).trans ((insertPrio_eq _ t _).trans ?_)
      refine congrArg (fun key => insertBy key t (w.list o')) ?_
      exact funext (WaitLists.priority_setTcb w (by rfl))
    · rw [if_neg ho]
      exact if_neg ho
  refine forall_congr' fun o' => forall_congr' fun ho' => ?_
  rw [hlist o' ho', funext (WaitLists.priority_rtIpcListSuspend w o (flag o) t)]
  split
  · exact ⟨fun h => h.sublist (sublist_insertBy _ _ _), fun h => h.insertBy t⟩
  · rfl

end Lists

/-! ## Calls -/

variable {Mutex Other Thread : Type} [DecidableEq Mutex] [DecidableEq Other] [DecidableEq Thread]

/-- The lists of objects with `RT_IPC_FLAG_PRIO` are in order, so the thread that a
resume takes has the highest priority. -/
structure Ordered (s : System Mutex Other Thread) : Prop where
  sorted : InOrder s.flag s.lists
  first : ∀ x t rest, s.flag x = .prio → s.lists.list x = t :: rest →
    ∀ u ∈ s.lists.list x, s.lists.priority t ≤ s.lists.priority u

omit [DecidableEq Mutex] [DecidableEq Other] [DecidableEq Thread] in
theorem ordered_iff (s : System Mutex Other Thread) : Ordered s ↔ InOrder s.flag s.lists := by
  refine ⟨Ordered.sorted, fun h => ⟨h, fun x t rest hx hl u hu => ?_⟩⟩
  rw [hl] at hu
  exact (hl ▸ h x hx).head_le u hu

/-- The call has to wait for the mutex. -/
structure Waits (s : System Mutex Other Thread) (m : Mutex) (t : Thread) (time : Int) :
    Prop where
  owner : (s.mutex m).owner ≠ some t
  taken : ¬ (s.mutex m).value > 0
  time : time ≠ 0

/-- A thread is where the priority belongs, on each list that is kept in order. -/
def KeepsPlace (s : System Mutex Other Thread) (t : Thread) (priority : Nat) : Prop :=
  ∀ x, s.flag x = .prio → Stays s.lists.priority (s.lists.list x) t priority

/-- A thread that gets a priority, explicit or inherited, is where that belongs. -/
def Good (s : System Mutex Other Thread) : Event Mutex Other Thread → Prop
  | .take m t time =>
    Waits s m t time → ∀ o, s.Raises m t o → KeepsPlace s o (s.lists.priority t)
  | .changePriority t priority => KeepsPlace s t priority
  | _ => True

theorem take_cases (s : System Mutex Other Thread) (m : Mutex) (t : Thread) (time : Int) :
    (Waits s m t time ∧
      (s.rtMutexTake m t time).1 = (s.setError t .eok).waitFor m t time) ∨
    (¬ Waits s m t time ∧ (s.rtMutexTake m t time).1.flag = s.flag ∧
      ∃ e, (s.rtMutexTake m t time).1.lists = s.lists.setError t e) := by
  unfold System.rtMutexTake
  split
  · rename_i ho
    exact .inr ⟨fun h => h.owner ho, rfl, .eok, rfl⟩
  · rename_i ho
    split
    · rename_i hv
      exact .inr ⟨fun h => h.taken hv, rfl, .eok, rfl⟩
    · rename_i hv
      split
      · rename_i ht
        exact .inr ⟨fun h => h.time ht, rfl, .etimeout, rfl⟩
      · rename_i ht
        exact .inl ⟨⟨ho, hv, ht⟩, rfl⟩

/-- A waiting take keeps the order exactly if the owner that it raises keeps its place. -/
theorem inOrder_waitFor_iff {s : System Mutex Other Thread} (hok : Ok s)
    (h : InOrder s.flag s.lists) (m : Mutex) {t : Thread} (ht : s.lists.Running t)
    (time : Int) : InOrder s.flag (s.waitFor m t time).lists ↔
      ∀ o, s.Raises m t o → KeepsPlace s o (s.lists.priority t) := by
  obtain ⟨-, hrun, -⟩ := raiseOwner_ok hok.lists m ht
  rw [System.waitFor, inOrder_startTimer, inOrder_rtIpcListSuspend hrun.1]
  obtain ⟨o, ho, heq⟩ | ⟨hno, heq⟩ := raiseOwner_cases s m t
  · rw [heq, inOrder_changePriority_iff hok.lists h]
    refine ⟨fun hs o' ho' => ?_, fun hs => hs o ho⟩
    obtain rfl := Option.some.inj (ho.1.symm.trans ho'.1)
    exact hs
  · rw [heq]
    exact ⟨fun _ o ho => absurd ho (hno o), fun _ => h⟩

theorem inOrder_take_iff {s : System Mutex Other Thread} (hok : Ok s)
    (h : InOrder s.flag s.lists) (m : Mutex) {t : Thread} (ht : s.lists.Running t)
    (time : Int) :
    InOrder (s.rtMutexTake m t time).1.flag (s.rtMutexTake m t time).1.lists ↔
      Good s (.take m t time) := by
  have hprio : (s.setError t .eok).lists.priority = s.lists.priority :=
    funext (WaitLists.priority_setError s.lists t .eok)
  obtain ⟨hw, heq⟩ | ⟨hnot, hflag, e, hlists⟩ := take_cases s m t time
  · rw [heq]
    have hiff := inOrder_waitFor_iff (hok.setError ht .eok)
      ((inOrder_setError s.lists t .eok).mpr h) m (Ok.running_setError ht .eok) time
    refine hiff.trans ?_
    unfold System.Raises KeepsPlace
    rw [hprio]
    exact ⟨fun hs _ => hs, fun hs => hs hw⟩
  · rw [hflag, hlists, inOrder_setError]
    exact ⟨fun _ hw => absurd hw hnot, fun _ => h⟩

omit [DecidableEq Other] in
/-- The thread that gets its priority back is running, so on no list. -/
theorem InOrder.release {s : System Mutex Other Thread} (hok : Ok s)
    (h : InOrder s.flag s.lists) (m : Mutex) {t : Thread} (ht : s.lists.Running t) :
    InOrder (s.rtMutexRelease m t).1.flag (s.rtMutexRelease m t).1.lists := by
  have hrestored : ∀ b, InOrder ((s.setMutex m b).restoreOwner m t).flag
      ((s.setMutex m b).restoreOwner m t).lists := by
    intro b
    unfold System.restoreOwner
    split
    · refine (inOrder_changePriority_iff hok.lists h t _).mpr fun x _ pre post heq => ?_
      refine absurd ?_ (hok.lists.ready_notMem ht.1 x)
      exact heq ▸ List.mem_append_right pre List.mem_cons_self
    · exact h
  unfold System.rtMutexRelease
  split
  · exact (inOrder_setError s.lists t .error).mpr h
  · split
    · unfold System.passOn
      split
      · exact (hrestored _).rtIpcListResume _
      · exact hrestored _
    · exact h

/-- A step keeps the order exactly if it is good. -/
theorem inOrder_step_iff {s s' : System Mutex Other Thread} (hok : Ok s)
    (h : InOrder s.flag s.lists) {e : Event Mutex Other Thread} (hstep : step s e = some s') :
    InOrder s'.flag s'.lists ↔ Good s e := by
  cases e with
  | take m t time =>
    obtain ⟨ht, heq⟩ := Option.ite_none_right_eq_some.mp hstep
    obtain rfl := Option.some.inj heq
    exact inOrder_take_iff hok h m ht time
  | release m t =>
    obtain ⟨ht, heq⟩ := Option.ite_none_right_eq_some.mp hstep
    obtain rfl := Option.some.inj heq
    exact ⟨fun _ => trivial, fun _ => h.release hok m ht⟩
  | wait o t time =>
    obtain ⟨ht, heq⟩ := Option.ite_none_right_eq_some.mp hstep
    obtain rfl := Option.some.inj heq
    refine ⟨fun _ => trivial, fun _ => ?_⟩
    have hrun : (s.lists.setError t .eok).Running t := Ok.running_setError ht .eok
    refine (inOrder_startTimer _ t time).mpr ?_
    exact (inOrder_rtIpcListSuspend hrun.1 (.inr o)).mpr ((inOrder_setError _ t .eok).mpr h)
  | wake o =>
    obtain rfl := Option.some.inj hstep
    exact ⟨fun _ => trivial, fun _ => h.rtIpcListResume _⟩
  | wakeThread o t =>
    obtain ⟨-, heq⟩ := Option.ite_none_right_eq_some.mp hstep
    obtain rfl := Option.some.inj heq
    exact ⟨fun _ => trivial, fun _ => h.rtThreadResume t⟩
  | timeout t =>
    obtain ⟨-, heq⟩ := Option.ite_none_right_eq_some.mp hstep
    obtain rfl := Option.some.inj heq
    exact ⟨fun _ => trivial, fun _ => h.readied t _⟩
  | run t =>
    obtain ⟨-, heq⟩ := Option.ite_none_right_eq_some.mp hstep
    obtain rfl := Option.some.inj heq
    exact ⟨fun _ => trivial, fun _ => h⟩
  | changePriority t priority =>
    obtain rfl := Option.some.inj hstep
    exact inOrder_changePriority_iff hok.lists h t priority

/-! ## Whole runs -/

/-- The lists are in order throughout exactly the runs in which every thread that gets a
priority while it waits keeps its place. -/
theorem ordered_throughout_iff (flag : Mutex ⊕ Other → IpcFlag) (priority : Thread → Nat)
    (es : List (Event Mutex Other Thread)) :
    Throughout step Ordered (start flag priority) es ↔
      Along step Good (start flag priority) es :=
  throughout_iff_along (J := fun s => Ok s ∧ Ordered s) (fun _ h => h.2)
    (fun _ _ _ h hg hstep => ⟨h.1.step hstep,
      (ordered_iff _).mpr ((inOrder_step_iff h.1 h.2.sorted hstep).mpr hg)⟩)
    (fun _ _ _ h hstep ho => (inOrder_step_iff h.1 h.2.sorted hstep).mp ho.sorted)
    ⟨ok_start flag priority, (ordered_iff _).mpr fun _ _ => List.Pairwise.nil⟩ es

/-- The owner of a mutex (`none`, priority 10) waits on a semaphore behind a thread of
priority 8, and is raised to 5 there. -/
theorem raised_waiter_stays_behind :
    ¬ Throughout step Ordered
      (@start Unit Unit (Option Bool) (fun _ => .prio) fun t =>
        t.elim 10 fun b => if b then 5 else 8)
      [.take () none (-1), .wait () (some false) (-1), .wait () none (-1),
        .take () (some true) (-1)] := by
  intro h
  have hrun : ∃ s, run step
      (@start Unit Unit (Option Bool) (fun _ => .prio) fun t =>
        t.elim 10 fun b => if b then 5 else 8)
      [.take () none (-1), .wait () (some false) (-1), .wait () none (-1),
        .take () (some true) (-1)] = some s ∧ s.flag (.inr ()) = .prio ∧
      s.lists.list (.inr ()) = [some false, none] ∧ s.lists.priority none = 5 ∧
      s.lists.priority (some false) = 8 := ⟨_, rfl, rfl, rfl, rfl, rfl⟩
  obtain ⟨s, hs, hflag, hlist, hnone, hfalse⟩ := hrun
  have hle := (h.last hs).first (.inr ()) (some false) [none] hflag hlist none (by simp [hlist])
  rw [hnone, hfalse] at hle
  exact absurd hle (by decide)

end ControlRTT.Kernel.WaitOrder

import ControlRTT.Lib.Runs
import ControlRTT.Kernel.WaitLists

/-! # Any number of mutexes (ipc.c)

Threads take and release mutexes, nested as they like, and wait on other IPC objects, of
which only the wait lists are followed. A thread that has to wait for a mutex raises
the owner to its own priority if that is higher; the outermost release gives the owner
back the priority it had when it took that mutex. -/
namespace ControlRTT.Kernel.MutexSystem
open ControlRTT.Lib.Runs ControlRTT.Kernel.Thread

structure RtMutex (Thread : Type) where
  value : BitVec 16 := 1
  originalPriority : Nat := 0xFF
  hold : BitVec 8 := 0
  owner : Option Thread := none

structure System (Mutex Other Thread : Type) where
  flag : Mutex ⊕ Other → IpcFlag
  mutex : Mutex → RtMutex Thread := fun _ => {}
  lists : WaitLists (Mutex ⊕ Other) Thread

variable {Mutex Other Thread : Type} [DecidableEq Mutex] [DecidableEq Other] [DecidableEq Thread]

namespace System

def setMutex (s : System Mutex Other Thread) (m : Mutex) (b : RtMutex Thread) :
    System Mutex Other Thread :=
  { s with mutex := fun m' => if m' = m then b else s.mutex m' }

def setError (s : System Mutex Other Thread) (t : Thread) (e : Err) :
    System Mutex Other Thread :=
  { s with lists := s.lists.setError t e }

/-- Whether a thread that waits for the mutex raises this owner. -/
def Raises (s : System Mutex Other Thread) (m : Mutex) (t o : Thread) : Prop :=
  (s.mutex m).owner = some o ∧ s.lists.priority t < s.lists.priority o

def raiseOwner (s : System Mutex Other Thread) (m : Mutex) (t : Thread) :
    WaitLists (Mutex ⊕ Other) Thread :=
  match (s.mutex m).owner with
  | none => s.lists
  | some o =>
    if s.lists.priority t < s.lists.priority o then s.lists.changePriority o (s.lists.priority t)
    else s.lists

/-- The thread goes to the wait list of the mutex. -/
def waitFor (s : System Mutex Other Thread) (m : Mutex) (t : Thread) (time : Int) :
    System Mutex Other Thread :=
  { s with lists :=
      ((s.raiseOwner m t).rtIpcListSuspend (.inl m) (s.flag (.inl m)) t).startTimer t time }

/-- The thread becomes the owner of a mutex that has none. -/
def own (s : System Mutex Other Thread) (m : Mutex) (t : Thread) : System Mutex Other Thread :=
  s.setMutex m
    { value := (s.mutex m).value - 1
      owner := some t
      originalPriority := s.lists.priority t
      hold := (s.mutex m).hold + 1 }

/-- The call up to its return, or up to `rt_schedule` if it has to wait (`none`). -/
def rtMutexTake (s : System Mutex Other Thread) (m : Mutex) (t : Thread) (time : Int) :
    System Mutex Other Thread × Option Err :=
  if (s.mutex m).owner = some t then
    ((s.setError t .eok).setMutex m { s.mutex m with hold := (s.mutex m).hold + 1 }, some .eok)
  else if (s.mutex m).value > 0 then ((s.setError t .eok).own m t, some .eok)
  else if time = 0 then (s.setError t .etimeout, some .etimeout)
  else ((s.setError t .eok).waitFor m t time, none)

/-- The owner gets back the priority it had when it took the mutex. -/
def restoreOwner (s : System Mutex Other Thread) (m : Mutex) (t : Thread) :
    System Mutex Other Thread :=
  if (s.mutex m).originalPriority ≠ s.lists.priority t then
    { s with lists := s.lists.changePriority t (s.mutex m).originalPriority }
  else s

/-- The first waiting thread becomes the owner, or nobody. -/
def passOn (s : System Mutex Other Thread) (m : Mutex) : System Mutex Other Thread :=
  match s.lists.list (.inl m) with
  | t :: _ =>
    { s.setMutex m { s.mutex m with
        owner := some t
        originalPriority := s.lists.priority t
        hold := (s.mutex m).hold + 1 } with
      lists := s.lists.rtIpcListResume (.inl m) }
  | [] =>
    s.setMutex m { s.mutex m with
      value := (s.mutex m).value + 1
      owner := none
      originalPriority := 0xFF }

def rtMutexRelease (s : System Mutex Other Thread) (m : Mutex) (t : Thread) :
    System Mutex Other Thread × Err :=
  if (s.mutex m).owner ≠ some t then (s.setError t .error, .error)
  else if (s.mutex m).hold - 1 = 0 then
    (((s.setMutex m { s.mutex m with hold := 0 }).restoreOwner m t).passOn m, .eok)
  else (s.setMutex m { s.mutex m with hold := (s.mutex m).hold - 1 }, .eok)

/-- A call that waits on another object, up to `rt_schedule`. -/
def waitOn (s : System Mutex Other Thread) (o : Other) (t : Thread) (time : Int) :
    System Mutex Other Thread :=
  { s with lists :=
      ((s.lists.setError t .eok).rtIpcListSuspend (.inr o) (s.flag (.inr o)) t).startTimer t time }

end System

inductive Event (Mutex Other Thread : Type) where
  | take (m : Mutex) (t : Thread) (time : Int)
  | release (m : Mutex) (t : Thread)
  | wait (o : Other) (t : Thread) (time : Int)
  | wake (o : Other)
  | wakeThread (o : Other) (t : Thread)
  | timeout (t : Thread)
  | run (t : Thread)
  | changePriority (t : Thread) (priority : Nat)

/-- Only a running thread calls, only a started timer fires, and only a resumed thread
comes back from `rt_schedule`. A call on another object may wake its first waiting
thread, or any. -/
def step (s : System Mutex Other Thread) :
    Event Mutex Other Thread → Option (System Mutex Other Thread)
  | .take m t time => if s.lists.Running t then some (s.rtMutexTake m t time).1 else none
  | .release m t => if s.lists.Running t then some (s.rtMutexRelease m t).1 else none
  | .wait o t time => if s.lists.Running t then some (s.waitOn o t time) else none
  | .wake o => some { s with lists := s.lists.rtIpcListResume (.inr o) }
  | .wakeThread o t =>
    if t ∈ s.lists.list (.inr o) then some { s with lists := s.lists.rtThreadResume t } else none
  | .timeout t =>
    if (s.lists.tcb t).timer then some { s with lists := s.lists.rtThreadTimeout t } else none
  | .run t => if t ∈ s.lists.resumed then some { s with lists := s.lists.runAgain t } else none
  | .changePriority t priority =>
    some { s with lists := s.lists.changePriority t priority }

def start (flag : Mutex ⊕ Other → IpcFlag) (priority : Thread → Nat) :
    System Mutex Other Thread where
  flag := flag
  lists := WaitLists.idle priority

/-! ## Lists and owners -/

/-- A mutex has an owner or its value, which is one. -/
structure Ok (s : System Mutex Other Thread) : Prop where
  lists : s.lists.Ok
  owned : ∀ m, (s.mutex m).owner ≠ none → (s.mutex m).value = 0
  unowned : ∀ m, (s.mutex m).owner = none → (s.mutex m).value = 1

/-- The thread owns no mutex. -/
def Free (s : System Mutex Other Thread) (t : Thread) : Prop :=
  ∀ m, (s.mutex m).owner ≠ some t

omit [DecidableEq Other] [DecidableEq Thread] in
@[simp] theorem setMutex_self (s : System Mutex Other Thread) (m : Mutex) (b : RtMutex Thread) :
    (s.setMutex m b).mutex m = b := if_pos rfl

omit [DecidableEq Other] [DecidableEq Thread] in
theorem setMutex_ne (s : System Mutex Other Thread) {m m' : Mutex} (b : RtMutex Thread)
    (h : m' ≠ m) : (s.setMutex m b).mutex m' = s.mutex m' := if_neg h

omit [DecidableEq Mutex] [DecidableEq Other] in
/-- The owner of the mutex is raised, or nothing changes. -/
theorem raiseOwner_cases (s : System Mutex Other Thread) (m : Mutex) (t : Thread) :
    (∃ o, s.Raises m t o ∧
      s.raiseOwner m t = s.lists.changePriority o (s.lists.priority t)) ∨
    ((∀ o, ¬ s.Raises m t o) ∧ s.raiseOwner m t = s.lists) := by
  unfold System.raiseOwner
  cases ho : (s.mutex m).owner with
  | none => exact .inr ⟨fun o h => (by rw [h.1] at ho; cases ho), rfl⟩
  | some o =>
    dsimp only
    split
    · rename_i hlt
      exact .inl ⟨o, ⟨ho, hlt⟩, rfl⟩
    · rename_i hlt
      refine .inr ⟨fun o' h => hlt ?_, rfl⟩
      obtain rfl := Option.some.inj (ho.symm.trans h.1)
      exact h.2

omit [DecidableEq Mutex] [DecidableEq Other] in
theorem raiseOwner_ok {s : System Mutex Other Thread} (h : s.lists.Ok) (m : Mutex) {t : Thread}
    (ht : s.lists.Running t) : (s.raiseOwner m t).Ok ∧ (s.raiseOwner m t).Running t ∧
      ((s.raiseOwner m t).tcb t).error = (s.lists.tcb t).error := by
  obtain ⟨o, -, heq⟩ | ⟨-, heq⟩ := raiseOwner_cases s m t
  · rw [heq]
    refine ⟨h.changePriority o _, ?_, ?_⟩
    · refine ⟨?_, ht.2⟩
      by_cases hto : t = o
      · subst hto
        simpa [WaitLists.changePriority] using ht.1
      · simpa [WaitLists.changePriority, WaitLists.setTcb_ne _ _ hto] using ht.1
    · by_cases hto : t = o
      · subst hto
        simp [WaitLists.changePriority]
      · simp [WaitLists.changePriority, WaitLists.setTcb_ne _ _ hto]
  · rw [heq]
    exact ⟨h, ht, rfl⟩

namespace Ok
variable {s : System Mutex Other Thread}

omit [DecidableEq Mutex] [DecidableEq Other] [DecidableEq Thread] in
/-- Only the lists change. -/
theorem withLists (h : Ok s) {lists : WaitLists (Mutex ⊕ Other) Thread} (hl : lists.Ok) :
    Ok { s with lists := lists } := ⟨hl, h.owned, h.unowned⟩

omit [DecidableEq Other] [DecidableEq Thread] in
/-- One mutex changes. -/
theorem withMutex (h : Ok s) {m : Mutex} {b : RtMutex Thread}
    (howned : b.owner ≠ none → b.value = 0) (hunowned : b.owner = none → b.value = 1) :
    Ok (s.setMutex m b) := by
  refine ⟨h.lists, fun m' => ?_, fun m' => ?_⟩
  · by_cases hm : m' = m
    · subst hm
      rwa [setMutex_self]
    · rw [setMutex_ne s b hm]
      exact h.owned m'
  · by_cases hm : m' = m
    · subst hm
      rwa [setMutex_self]
    · rw [setMutex_ne s b hm]
      exact h.unowned m'

omit [DecidableEq Mutex] [DecidableEq Other] [DecidableEq Thread] in
/-- A mutex that can be taken at once has no owner. -/
theorem owner_of_value (h : Ok s) {m : Mutex} (hv : (s.mutex m).value > 0) :
    (s.mutex m).owner = none := by
  by_contra ho
  rw [h.owned m ho] at hv
  exact absurd hv (by decide)

omit [DecidableEq Mutex] [DecidableEq Other] in
theorem setError (h : Ok s) {t : Thread} (ht : s.lists.Running t) (e : Err) :
    Ok (s.setError t e) := h.withLists (h.lists.setError ht.1 e)

theorem waitFor (h : Ok s) {t : Thread} (ht : s.lists.Running t)
    (herr : (s.lists.tcb t).error = .eok) (m : Mutex) (time : Int) : Ok (s.waitFor m t time) := by
  obtain ⟨hok, hrun, he⟩ := raiseOwner_ok h.lists m ht
  have hs := hok.rtIpcListSuspend hrun (he.trans herr) (.inl m) (s.flag (.inl m))
  refine h.withLists (hs.startTimer ?_ time)
  exact (hs.stat t).mpr ⟨.inl m, (WaitLists.mem_rtIpcListSuspend hrun.1 _ _ _ _).mpr
    (.inl ⟨rfl, rfl⟩)⟩

omit [DecidableEq Mutex] [DecidableEq Other] in
theorem running_setError {t : Thread} (ht : s.lists.Running t) (e : Err) :
    (s.setError t e).lists.Running t :=
  ⟨by simpa [System.setError, WaitLists.setError] using ht.1, ht.2⟩

theorem take (h : Ok s) {t : Thread} (ht : s.lists.Running t) (m : Mutex) (time : Int) :
    Ok (s.rtMutexTake m t time).1 := by
  have he := h.setError ht .eok
  unfold System.rtMutexTake
  split
  · exact he.withMutex (h.owned m) (h.unowned m)
  · split
    · rename_i hv
      refine he.withMutex (fun _ => ?_) fun hn => by cases hn
      change (s.mutex m).value - 1 = 0
      rw [h.unowned m (h.owner_of_value hv)]
      rfl
    · split
      · exact h.setError ht .etimeout
      · refine he.waitFor (running_setError ht .eok) ?_ m time
        simp [System.setError, WaitLists.setError]

omit [DecidableEq Other] [DecidableEq Mutex] in
theorem restoreOwner (h : Ok s) (m : Mutex) (t : Thread) : Ok (s.restoreOwner m t) := by
  unfold System.restoreOwner
  split
  · exact h.withLists (h.lists.changePriority t _)
  · exact h

omit [DecidableEq Other] in
theorem passOn (h : Ok s) {m : Mutex} (hm : (s.mutex m).owner ≠ none) : Ok (s.passOn m) := by
  unfold System.passOn
  split
  · refine Ok.withLists (h.withMutex (fun _ => ?_) fun hn => by cases hn)
      (h.lists.rtIpcListResume _)
    exact h.owned m hm
  · refine h.withMutex (fun hn => absurd rfl hn) fun _ => ?_
    change (s.mutex m).value + 1 = 1
    rw [h.owned m hm]
    rfl

omit [DecidableEq Mutex] [DecidableEq Other] in
theorem restoreOwner_mutex (s : System Mutex Other Thread) (m : Mutex) (t : Thread) :
    (s.restoreOwner m t).mutex = s.mutex := by
  unfold System.restoreOwner
  split
  · rfl
  · rfl

omit [DecidableEq Other] in
theorem release (h : Ok s) {t : Thread} (ht : s.lists.Running t) (m : Mutex) :
    Ok (s.rtMutexRelease m t).1 := by
  unfold System.rtMutexRelease
  split
  · exact h.setError ht .error
  · rename_i ho
    have hown := not_not.mp ho
    have hm : ∀ hold, Ok (s.setMutex m { s.mutex m with hold := hold }) := fun _ =>
      h.withMutex (h.owned m) (h.unowned m)
    split
    · refine Ok.passOn ((hm 0).restoreOwner m t) ?_
      rw [restoreOwner_mutex, setMutex_self]
      simp [hown]
    · exact hm _

theorem waitOn (h : Ok s) {t : Thread} (ht : s.lists.Running t) (o : Other) (time : Int) :
    Ok (s.waitOn o t time) := by
  have he := (h.setError ht .eok).lists
  have hrun : (s.lists.setError t .eok).Running t := running_setError ht .eok
  have herr : ((s.lists.setError t .eok).tcb t).error = .eok := by
    rw [WaitLists.setError, WaitLists.setTcb_self]
  have hs := he.rtIpcListSuspend hrun herr (.inr o) (s.flag (.inr o))
  refine h.withLists (hs.startTimer ?_ time)
  exact (hs.stat t).mpr ⟨.inr o, (WaitLists.mem_rtIpcListSuspend hrun.1 _ _ _ _).mpr
    (.inl ⟨rfl, rfl⟩)⟩

theorem step {s' : System Mutex Other Thread} (h : Ok s) {e : Event Mutex Other Thread}
    (hstep : MutexSystem.step s e = some s') : Ok s' := by
  cases e with
  | take m t time =>
    obtain ⟨ht, heq⟩ := Option.ite_none_right_eq_some.mp hstep
    obtain rfl := Option.some.inj heq
    exact h.take ht m time
  | release m t =>
    obtain ⟨ht, heq⟩ := Option.ite_none_right_eq_some.mp hstep
    obtain rfl := Option.some.inj heq
    exact h.release ht m
  | wait o t time =>
    obtain ⟨ht, heq⟩ := Option.ite_none_right_eq_some.mp hstep
    obtain rfl := Option.some.inj heq
    exact h.waitOn ht o time
  | wake o =>
    obtain rfl := Option.some.inj hstep
    exact h.withLists (h.lists.rtIpcListResume _)
  | wakeThread o t =>
    obtain ⟨-, heq⟩ := Option.ite_none_right_eq_some.mp hstep
    obtain rfl := Option.some.inj heq
    exact h.withLists (h.lists.rtThreadResume t)
  | timeout t =>
    obtain ⟨ht, heq⟩ := Option.ite_none_right_eq_some.mp hstep
    obtain rfl := Option.some.inj heq
    exact h.withLists (h.lists.rtThreadTimeout ht)
  | run t =>
    obtain ⟨-, heq⟩ := Option.ite_none_right_eq_some.mp hstep
    obtain rfl := Option.some.inj heq
    exact h.withLists (h.lists.runAgain t)
  | changePriority t priority =>
    obtain rfl := Option.some.inj hstep
    exact h.withLists (h.lists.changePriority t priority)

end Ok

omit [DecidableEq Mutex] [DecidableEq Other] [DecidableEq Thread] in
theorem ok_start (flag : Mutex ⊕ Other → IpcFlag) (priority : Thread → Nat) :
    Ok (start flag priority) where
  lists := WaitLists.ok_idle priority
  owned _ h := absurd rfl h
  unowned _ _ := rfl

end ControlRTT.Kernel.MutexSystem

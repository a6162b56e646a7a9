import ControlRTT.Lib.Runs
import Mathlib.Algebra.Order.Ring.Int
import Mathlib.Data.List.Nodup
import Mathlib.Logic.Function.Basic

/-! # Threads that have ended (thread.c, idle.c, object.c)

A thread ends by its own return, or is detached or deleted by another. Each of the three does a
part of the work and leaves the rest to the idle thread, by way of the defunct list. The idle
thread decides by the object's static flag whether it may free the memory. That is right for all
threads but static ones with a cleanup function: a detach has cleared their flag, and a return
leaves them in the object container (`reclaimed_iff`). -/
namespace ControlRTT.Kernel.Reclaim
open ControlRTT.Lib.Runs

/-- `RT_Object_Class_Thread` -/
def objectClassThread : BitVec 8 := 0

/-- `RT_Object_Class_Timer` -/
def objectClassTimer : BitVec 8 := 9

/-- `RT_Object_Class_Static` -/
def objectClassStatic : BitVec 8 := 0x80

def rtObjectGetType (type : BitVec 8) : BitVec 8 := type &&& ~~~objectClassStatic

def rtObjectIsSystemobject (type : BitVec 8) : Bool := type &&& objectClassStatic ≠ 0

/-- `absent` is a thread that has not been made. -/
inductive Stat where
  | absent
  | init
  | started
  | close
  deriving DecidableEq, Repr

/-- The object of a thread and that of its timer: their types, and whether the thread's object is
in the container; `cleanup` is whether a function is set. -/
structure RtThread where
  type : BitVec 8 := 0
  contained : Bool := false
  timerType : BitVec 8 := 0
  stat : Stat := .absent
  cleanup : Bool := false
  deriving DecidableEq, Repr

/-- How a thread was made, and how often it has left the container, its cleanup function has been
called, and its stack and control block have been freed. -/
structure Account where
  dynamic : Bool := false
  left : Nat := 0
  cleaned : Nat := 0
  stackFreed : Nat := 0
  blockFreed : Nat := 0
  deriving DecidableEq, Repr

/-- Each life of a control block has an `Id` of its own. `reclaiming` are the threads that the idle
thread has taken from the list and found not static, and whose memory it is about to free. -/
structure System (Id : Type) where
  thread : Id → RtThread := fun _ => {}
  account : Id → Account := fun _ => {}
  defunct : List Id := []
  reclaiming : List Id := []

variable {Id : Type} [DecidableEq Id]

namespace System

def setThread (s : System Id) (t : Id) (r : RtThread) : System Id :=
  { s with thread := Function.update s.thread t r }

def setAccount (s : System Id) (t : Id) (a : Account) : System Id :=
  { s with account := Function.update s.account t a }

/-- `rt_object_init`, and what `_rt_thread_init` makes of the rest. -/
def rtThreadInit (s : System Id) (t : Id) : System Id :=
  s.setThread t {
    type := objectClassThread ||| objectClassStatic
    contained := true
    timerType := objectClassTimer ||| objectClassStatic
    stat := .init }

/-- `rt_thread_create` where there is memory for the object and the stack. -/
def rtThreadCreate (s : System Id) (t : Id) : System Id :=
  (s.setThread t {
    type := objectClassThread
    contained := true
    timerType := objectClassTimer ||| objectClassStatic
    stat := .init }).setAccount t { dynamic := true }

def rtThreadStartup (s : System Id) (t : Id) : System Id :=
  s.setThread t { s.thread t with stat := .started }

def setCleanup (s : System Id) (t : Id) (cleanup : Bool) : System Id :=
  s.setThread t { s.thread t with cleanup := cleanup }

/-- The object loses its type and leaves the container, if it is there. -/
def rtObjectDetach (s : System Id) (t : Id) : System Id :=
  (s.setThread t { s.thread t with type := 0, contained := false }).setAccount t
    { s.account t with
      left := (s.account t).left + if (s.thread t).contained then 1 else 0 }

/-- `rt_timer_detach` on the thread's timer, and the new state. -/
def close (s : System Id) (t : Id) : System Id :=
  s.setThread t { s.thread t with timerType := 0, stat := .close }

def insertDefunct (s : System Id) (t : Id) : System Id := { s with defunct := t :: s.defunct }

def rtThreadExit (s : System Id) (t : Id) : System Id :=
  if rtObjectIsSystemobject (s.thread t).type ∧ (s.thread t).cleanup = false then
    (s.close t).rtObjectDetach t
  else (s.close t).insertDefunct t

def rtThreadDetach (s : System Id) (t : Id) : System Id :=
  if (s.thread t).cleanup then ((s.close t).rtObjectDetach t).insertDefunct t
  else (s.close t).rtObjectDetach t

def rtThreadDelete (s : System Id) (t : Id) : System Id := (s.close t).insertDefunct t

def invokeCleanup (s : System Id) (t : Id) : System Id :=
  s.setAccount t
    { s.account t with
      cleaned := (s.account t).cleaned + if (s.thread t).cleanup then 1 else 0 }

/-- A turn of the loop of `rt_thread_idle_excute` in its critical section. -/
def collect (s : System Id) : System Id :=
  match s.defunct with
  | [] => s
  | t :: rest =>
    if rtObjectIsSystemobject (s.thread t).type then
      { s.invokeCleanup t with defunct := rest }
    else { s.invokeCleanup t with defunct := rest, reclaiming := t :: s.reclaiming }

/-- The end of the turn: the stack is freed, and the object is deleted with its memory. -/
def release (s : System Id) (t : Id) : System Id :=
  { (s.rtObjectDetach t).setAccount t
      { (s.rtObjectDetach t).account t with
        stackFreed := ((s.rtObjectDetach t).account t).stackFreed + 1
        blockFreed := ((s.rtObjectDetach t).account t).blockFreed + 1 } with
    reclaiming := s.reclaiming.erase t }

/-- What a thread that is closed must pass: the assertions of `rt_timer_detach`. -/
def TimerAttached (s : System Id) (t : Id) : Prop :=
  rtObjectGetType (s.thread t).timerType = objectClassTimer ∧
    rtObjectIsSystemobject (s.thread t).timerType

instance (s : System Id) (t : Id) : Decidable (s.TimerAttached t) :=
  inferInstanceAs (Decidable (_ ∧ _))

end System

inductive Event (Id : Type) where
  | init (t : Id)
  | create (t : Id)
  | startup (t : Id)
  | setCleanup (t : Id) (cleanup : Bool)
  | exit (t : Id)
  | detach (t : Id)
  | delete (t : Id)
  | collect
  | release (t : Id)
  deriving DecidableEq, Repr

/-- The events of the idle thread. -/
def Event.Idle : Event Id → Prop
  | .collect => True
  | .release _ => True
  | _ => False

/-- The calls with their assertions. A thread that exits has been started. -/
def step (s : System Id) : Event Id → Option (System Id)
  | .init t => if (s.thread t).stat = .absent then some (s.rtThreadInit t) else none
  | .create t => if (s.thread t).stat = .absent then some (s.rtThreadCreate t) else none
  | .startup t =>
    if (s.thread t).stat = .init ∧ rtObjectGetType (s.thread t).type = objectClassThread then
      some (s.rtThreadStartup t)
    else none
  | .setCleanup t cleanup =>
    if (s.thread t).stat = .init ∨ (s.thread t).stat = .started then
      some (s.setCleanup t cleanup)
    else none
  | .exit t =>
    if (s.thread t).stat = .started ∧ s.TimerAttached t then some (s.rtThreadExit t) else none
  | .detach t =>
    if rtObjectGetType (s.thread t).type = objectClassThread ∧
        rtObjectIsSystemobject (s.thread t).type ∧ s.TimerAttached t then
      some (s.rtThreadDetach t)
    else none
  | .delete t =>
    if rtObjectGetType (s.thread t).type = objectClassThread ∧
        rtObjectIsSystemobject (s.thread t).type = false ∧ s.TimerAttached t then
      some (s.rtThreadDelete t)
    else none
  | .collect => some s.collect
  | .release t =>
    if t ∈ s.reclaiming ∧ rtObjectIsSystemobject (s.thread t).type = false then
      some (s.release t)
    else none

/-- A thread that has ended, and that the idle thread has nothing left to do for. -/
def Ended (s : System Id) (t : Id) : Prop :=
  (s.thread t).stat = .close ∧ t ∉ s.defunct ∧ t ∉ s.reclaiming

/-- It has left the container once, its cleanup function has been called once if it was set, and
its memory has been freed once if it was created, and never if it was initialised. -/
def Settled (r : RtThread) (a : Account) : Prop :=
  a.left = 1 ∧ a.cleaned = (if r.cleanup then 1 else 0) ∧
    a.stackFreed = (if a.dynamic then 1 else 0) ∧ a.blockFreed = (if a.dynamic then 1 else 0)

def Reclaimed (s : System Id) : Prop := ∀ t, Ended s t → Settled (s.thread t) (s.account t)

/-- A static thread is closed without a cleanup function. -/
def Tidy (s : System Id) : Event Id → Prop
  | .exit t => rtObjectIsSystemobject (s.thread t).type → (s.thread t).cleanup = false
  | .detach t => (s.thread t).cleanup = false
  | _ => True

/-! ## What every step keeps -/

/-- A thread that can be started or runs. -/
structure Live (r : RtThread) (a : Account) : Prop where
  contained : r.contained = true
  timerType : r.timerType = 0x89
  type : r.type = if a.dynamic then 0 else 0x80
  account : a = { dynamic := a.dynamic }

/-- A closed thread, by whether it is in the defunct list and whether its memory is about to be
freed. -/
structure Closed (r : RtThread) (a : Account) (defunct reclaiming : Bool) : Prop where
  timerType : r.timerType = 0
  type : r.type = 0 ∨ r.type = 0x80 ∧ a.dynamic = false ∧ r.cleanup = true ∧ reclaiming = false
  contained : r.contained = true ↔
    r.type = 0x80 ∨ a.dynamic = true ∧ (defunct = true ∨ reclaiming = true)
  left : a.left = if r.contained then 0 else 1
  queued : defunct = true ∨ reclaiming = true → a.dynamic = true ∨ r.cleanup = true
  cleaned : a.cleaned = if r.cleanup = true ∧ defunct = false then 1 else 0
  stackFreed : a.stackFreed = if r.type = 0 ∧ defunct = false ∧ reclaiming = false ∧
    (a.dynamic = true ∨ r.cleanup = true) then 1 else 0
  blockFreed : a.blockFreed = a.stackFreed

/-- The static flag of a live thread tells how it was made. -/
theorem Live.isSystemobject {r : RtThread} {a : Account} (h : Live r a) :
    rtObjectIsSystemobject r.type = !a.dynamic := by
  rw [h.type]
  cases a.dynamic with
  | true => rfl
  | false => rfl

/-- A thread goes to the defunct list as it is. -/
theorem Live.defunct {r : RtThread} {a : Account} (h : Live r a)
    (hkept : a.dynamic = true ∨ r.cleanup = true) :
    Closed { r with timerType := 0, stat := .close } a true false := by
  obtain ⟨hcontained, -, htype, haccount⟩ := h
  rw [haccount]
  cases hdynamic : a.dynamic with
  | true =>
    exact ⟨rfl, .inl (by simp [htype, hdynamic]), by simp [hcontained], by simp [hcontained],
      fun _ => .inl rfl, by simp, by simp, rfl⟩
  | false =>
    have hcleanup := hkept.resolve_left (by simp [hdynamic])
    exact ⟨rfl, .inr ⟨by simp [htype, hdynamic], rfl, hcleanup, rfl⟩,
      by simp [hcontained, htype, hdynamic], by simp [hcontained], fun _ => .inr hcleanup, by simp,
      by simp, rfl⟩

/-- A static thread leaves the container at once, and goes to the defunct list for its cleanup
function. -/
theorem Live.detached {r : RtThread} {a : Account} (h : Live r a) (hstatic : a.dynamic = false)
    {cleanup : Bool} (hcleanup : r.cleanup = cleanup) :
    Closed { r with timerType := 0, stat := .close, type := 0, contained := false }
      { a with left := a.left + if r.contained then 1 else 0 } cleanup false := by
  obtain ⟨hcontained, -, -, haccount⟩ := h
  rw [haccount, hstatic]
  cases cleanup with
  | true => exact ⟨rfl, .inl rfl, by simp, by simp [hcontained], fun _ => .inr hcleanup, by simp,
      by simp, rfl⟩
  | false => exact ⟨rfl, .inl rfl, by simp, by simp [hcontained], by simp, by simp [hcleanup],
      by simp [hcleanup], rfl⟩

/-- The idle thread calls the cleanup function, and frees a thread without the static flag. -/
theorem Closed.collected {r : RtThread} {a : Account} (h : Closed r a true false) :
    Closed r { a with cleaned := a.cleaned + if r.cleanup then 1 else 0 } false
      (!rtObjectIsSystemobject r.type) := by
  obtain ⟨htimer, htype, hcontained, hleft, hqueued, hcleaned, hstack, hblock⟩ := h
  have hkept := hqueued (.inl rfl)
  obtain htype | ⟨htype, hdynamic, hcleanup, -⟩ := htype
  · have hplain : rtObjectIsSystemobject r.type = false := by rw [htype]; rfl
    rw [hplain]
    refine ⟨htimer, .inl htype, ?_, hleft, fun _ => hkept, ?_, ?_, hblock⟩
    · simpa [htype] using hcontained
    · simp [hcleaned]
    · simpa using hstack
  · have hplain : rtObjectIsSystemobject r.type = true := by rw [htype]; rfl
    rw [hplain]
    refine ⟨htimer, .inr ⟨htype, hdynamic, hcleanup, rfl⟩, ?_, hleft, fun _ => hkept, ?_, ?_,
      hblock⟩
    · simpa [htype] using hcontained
    · simp [hcleaned]
    · simpa [htype] using hstack

theorem Closed.released {r : RtThread} {a : Account} (h : Closed r a false true) :
    Closed { r with type := 0, contained := false }
      { a with
        left := a.left + if r.contained then 1 else 0
        stackFreed := a.stackFreed + 1
        blockFreed := a.blockFreed + 1 } false false := by
  obtain ⟨htimer, -, hcontained, hleft, hqueued, hcleaned, hstack, hblock⟩ := h
  have hkept := hqueued (.inr rfl)
  refine ⟨htimer, .inl rfl, by simp, ?_, by simp, hcleaned, ?_, congrArg (· + 1) hblock⟩
  · rw [hleft]
    cases r.contained with
    | true => rfl
    | false => rfl
  · simp [hstack, hkept]

/-- Only a static thread with a cleanup function comes out wrong, and such a one does. -/
theorem Closed.settled_iff {r : RtThread} {a : Account} (h : Closed r a false false) :
    Settled r a ↔ (a.dynamic = true ∨ r.cleanup = false) := by
  obtain ⟨-, htype, hcontained, hleft, -, hcleaned, hstack, hblock⟩ := h
  unfold Settled
  rw [hblock, hstack, hcleaned, hleft]
  obtain htype | ⟨htype, hdynamic, hcleanup, -⟩ := htype
  · have hout : r.contained = false := by simpa [htype] using hcontained
    cases hdynamic : a.dynamic with
    | true => simp [htype, hout]
    | false => simp [htype, hout]
  · simp [htype, hdynamic, hcleanup, hcontained]

/-- What is known of a thread, by its state and its lists. -/
def Status (r : RtThread) (a : Account) (defunct reclaiming : Bool) : Prop :=
  match r.stat with
  | .absent => r = {} ∧ a = {} ∧ defunct = false ∧ reclaiming = false
  | .init | .started => Live r a ∧ defunct = false ∧ reclaiming = false
  | .close => Closed r a defunct reclaiming

theorem Status.of_live {r : RtThread} {a : Account} {d c : Bool}
    (hr : r.stat = .init ∨ r.stat = .started) (h : Live r a) (hd : d = false) (hc : c = false) :
    Status r a d c := by
  unfold Status
  obtain hr | hr := hr
  · rw [hr]
    exact ⟨h, hd, hc⟩
  · rw [hr]
    exact ⟨h, hd, hc⟩

theorem Status.of_closed {r : RtThread} {a : Account} {d c : Bool} (hr : r.stat = .close)
    (h : Closed r a d c) : Status r a d c := by
  unfold Status
  rwa [hr]

structure Inv (s : System Id) : Prop where
  once : (s.defunct ++ s.reclaiming).Nodup
  status : ∀ t, Status (s.thread t) (s.account t) (decide (t ∈ s.defunct))
    (decide (t ∈ s.reclaiming))

theorem inv_start : Inv ({} : System Id) where
  once := List.nodup_nil
  status _ := ⟨rfl, rfl, rfl, rfl⟩

/-- A step that concerns one thread. -/
def System.put (s : System Id) (t : Id) (r : RtThread) (a : Account)
    (defunct reclaiming : List Id) : System Id where
  thread := Function.update s.thread t r
  account := Function.update s.account t a
  defunct := defunct
  reclaiming := reclaiming

namespace System

theorem setThread_eq (s : System Id) (t : Id) (r : RtThread) :
    s.setThread t r = s.put t r (s.account t) s.defunct s.reclaiming := by
  simp only [setThread, put, Function.update_eq_self]

theorem setAccount_eq (s : System Id) (t : Id) (a : Account) :
    s.setAccount t a = s.put t (s.thread t) a s.defunct s.reclaiming := by
  simp only [setAccount, put, Function.update_eq_self]

@[simp] theorem put_put (s : System Id) (t : Id) (r r' : RtThread) (a a' : Account)
    (d d' c c' : List Id) : (s.put t r a d c).put t r' a' d' c' = s.put t r' a' d' c' := by
  simp only [put, Function.update_idem]

@[simp] theorem thread_put (s : System Id) (t : Id) (r : RtThread) (a : Account) (d c : List Id) :
    (s.put t r a d c).thread t = r := Function.update_self ..

@[simp] theorem account_put (s : System Id) (t : Id) (r : RtThread) (a : Account) (d c : List Id) :
    (s.put t r a d c).account t = a := Function.update_self ..

theorem close_eq (s : System Id) (t : Id) :
    s.close t = s.put t { s.thread t with timerType := 0, stat := .close } (s.account t) s.defunct
      s.reclaiming := s.setThread_eq t _

theorem rtObjectDetach_eq (s : System Id) (t : Id) :
    s.rtObjectDetach t = s.put t { s.thread t with type := 0, contained := false }
      { s.account t with
        left := (s.account t).left + if (s.thread t).contained then 1 else 0 }
      s.defunct s.reclaiming := by
  unfold rtObjectDetach
  rw [setThread_eq, setAccount_eq, put_put, thread_put]
  rfl

theorem close_rtObjectDetach_eq (s : System Id) (t : Id) :
    (s.close t).rtObjectDetach t =
      s.put t { s.thread t with timerType := 0, stat := .close, type := 0, contained := false }
        { s.account t with
          left := (s.account t).left + if (s.thread t).contained then 1 else 0 }
        s.defunct s.reclaiming := by
  rw [close_eq, rtObjectDetach_eq, put_put, thread_put, account_put]
  rfl

theorem close_insertDefunct_eq (s : System Id) (t : Id) :
    (s.close t).insertDefunct t =
      s.put t { s.thread t with timerType := 0, stat := .close } (s.account t) (t :: s.defunct)
        s.reclaiming := by
  rw [close_eq]
  rfl

theorem collect_nil {s : System Id} (hl : s.defunct = []) : s.collect = s := by
  unfold collect
  rw [hl]

theorem collect_cons {s : System Id} {t : Id} {rest : List Id} (hl : s.defunct = t :: rest) :
    s.collect = s.put t (s.thread t)
      { s.account t with
        cleaned := (s.account t).cleaned + if (s.thread t).cleanup then 1 else 0 }
      rest (if rtObjectIsSystemobject (s.thread t).type then s.reclaiming
        else t :: s.reclaiming) := by
  unfold collect invokeCleanup
  rw [hl]
  dsimp only
  rw [setAccount_eq]
  split
  · rfl
  · rfl

theorem release_eq (s : System Id) (t : Id) :
    s.release t = s.put t { s.thread t with type := 0, contained := false }
      { s.account t with
        left := (s.account t).left + if (s.thread t).contained then 1 else 0
        stackFreed := (s.account t).stackFreed + 1
        blockFreed := (s.account t).blockFreed + 1 }
      s.defunct (s.reclaiming.erase t) := by
  unfold release
  rw [rtObjectDetach_eq, setAccount_eq, put_put, thread_put, account_put]
  rfl

end System

namespace Inv
variable {s : System Id} {t : Id}

theorem put (h : Inv s) {r : RtThread} {a : Account} {defunct reclaiming : List Id}
    (honce : (defunct ++ reclaiming).Nodup) (hdefunct : ∀ u ≠ t, u ∈ defunct ↔ u ∈ s.defunct)
    (hreclaiming : ∀ u ≠ t, u ∈ reclaiming ↔ u ∈ s.reclaiming)
    (hstatus : Status r a (decide (t ∈ defunct)) (decide (t ∈ reclaiming))) :
    Inv (s.put t r a defunct reclaiming) where
  once := honce
  status u := by
    unfold System.put
    by_cases hut : u = t
    · subst hut
      simpa only [Function.update_self] using hstatus
    · simp only [Function.update_of_ne hut, hdefunct u hut, hreclaiming u hut]
      exact h.status u

/-- A step that leaves the lists alone. -/
theorem put_record (h : Inv s) {r : RtThread} {a : Account}
    (hstatus : Status r a (decide (t ∈ s.defunct)) (decide (t ∈ s.reclaiming))) :
    Inv (s.put t r a s.defunct s.reclaiming) :=
  h.put h.once (fun _ _ => Iff.rfl) (fun _ _ => Iff.rfl) hstatus

/-- A thread that is in neither list enters the defunct list. -/
theorem put_defunct (h : Inv s) {r : RtThread} {a : Account} (hd : t ∉ s.defunct)
    (hc : t ∉ s.reclaiming) (hstatus : Status r a true false) :
    Inv (s.put t r a (t :: s.defunct) s.reclaiming) := by
  refine h.put (List.nodup_cons.mpr ⟨?_, h.once⟩) (fun u hut => ?_) (fun _ _ => Iff.rfl) ?_
  · exact fun hmem => (List.mem_append.mp hmem).elim hd hc
  · rw [List.mem_cons]
    exact or_iff_right hut
  · simpa [hc] using hstatus

theorem absent (h : Inv s) (ht : (s.thread t).stat = .absent) :
    s.thread t = {} ∧ s.account t = {} ∧ t ∉ s.defunct ∧ t ∉ s.reclaiming := by
  have hstatus := h.status t
  unfold Status at hstatus
  rw [ht] at hstatus
  simpa using hstatus

theorem live (h : Inv s) (ht : (s.thread t).stat = .init ∨ (s.thread t).stat = .started) :
    Live (s.thread t) (s.account t) ∧ t ∉ s.defunct ∧ t ∉ s.reclaiming := by
  have hstatus := h.status t
  unfold Status at hstatus
  obtain ht | ht := ht
  · rw [ht] at hstatus
    simpa using hstatus
  · rw [ht] at hstatus
    simpa using hstatus

theorem closed (h : Inv s) (ht : (s.thread t).stat = .close) :
    Closed (s.thread t) (s.account t) (decide (t ∈ s.defunct)) (decide (t ∈ s.reclaiming)) := by
  have hstatus := h.status t
  unfold Status at hstatus
  rwa [ht] at hstatus

/-- A thread whose timer is attached has been made and not been closed. -/
theorem live_of_timerAttached (h : Inv s) (ht : s.TimerAttached t) :
    (s.thread t).stat = .init ∨ (s.thread t).stat = .started := by
  have hzero : ∀ {type : BitVec 8}, type = 0 → rtObjectIsSystemobject type = true → False := by
    rintro _ rfl hstatic
    cases hstatic
  cases hstat : (s.thread t).stat with
  | absent => exact (hzero (by rw [(h.absent hstat).1]) ht.2).elim
  | close => exact (hzero (h.closed hstat).timerType ht.2).elim
  | init => exact .inl rfl
  | started => exact .inr rfl

theorem exit (h : Inv s) (ht : (s.thread t).stat = .started) : Inv (s.rtThreadExit t) := by
  obtain ⟨hlive, hd, hc⟩ := h.live (.inr ht)
  have hstatic := hlive.isSystemobject
  unfold System.rtThreadExit
  split
  · rename_i hplain
    rw [System.close_rtObjectDetach_eq]
    have hclosed := hlive.detached (by simpa [hstatic] using hplain.1) hplain.2
    refine h.put_record (.of_closed rfl ?_)
    rwa [decide_eq_false hd, decide_eq_false hc]
  · rename_i hkept
    rw [System.close_insertDefunct_eq]
    refine h.put_defunct hd hc (.of_closed rfl (hlive.defunct ?_))
    simpa [hstatic, or_iff_not_imp_left] using hkept

theorem detach (h : Inv s) (ht : s.TimerAttached t)
    (hstatic : rtObjectIsSystemobject (s.thread t).type = true) : Inv (s.rtThreadDetach t) := by
  obtain ⟨hlive, hd, hc⟩ := h.live (h.live_of_timerAttached ht)
  have hstatic' : (s.account t).dynamic = false := by simpa [hlive.isSystemobject] using hstatic
  unfold System.rtThreadDetach
  rw [System.close_rtObjectDetach_eq]
  split
  · rename_i hcleanup
    exact h.put_defunct hd hc (.of_closed rfl (hlive.detached hstatic' hcleanup))
  · rename_i hcleanup
    refine h.put_record (.of_closed rfl ?_)
    rw [decide_eq_false hd, decide_eq_false hc]
    exact hlive.detached hstatic' (Bool.eq_false_iff.mpr hcleanup)

theorem delete (h : Inv s) (ht : s.TimerAttached t)
    (hdynamic : rtObjectIsSystemobject (s.thread t).type = false) : Inv (s.rtThreadDelete t) := by
  obtain ⟨hlive, hd, hc⟩ := h.live (h.live_of_timerAttached ht)
  unfold System.rtThreadDelete
  rw [System.close_insertDefunct_eq]
  refine h.put_defunct hd hc (.of_closed rfl (hlive.defunct (.inl ?_)))
  simpa [hlive.isSystemobject] using hdynamic

/-- A thread that the idle thread has to do with is closed. -/
theorem closed_of_mem (h : Inv s) (ht : t ∈ s.defunct ++ s.reclaiming) :
    (s.thread t).stat = .close := by
  have hmem := List.mem_append.mp ht
  cases hstat : (s.thread t).stat with
  | close => rfl
  | absent =>
    obtain ⟨-, -, hd, hc⟩ := h.absent hstat
    exact (hmem.elim hd hc).elim
  | init =>
    obtain ⟨-, hd, hc⟩ := h.live (.inl hstat)
    exact (hmem.elim hd hc).elim
  | started =>
    obtain ⟨-, hd, hc⟩ := h.live (.inr hstat)
    exact (hmem.elim hd hc).elim

theorem collect (h : Inv s) : Inv s.collect := by
  cases hl : s.defunct with
  | nil =>
    rw [System.collect_nil hl]
    exact h
  | cons t rest =>
    rw [System.collect_cons hl]
    have honce := h.once
    rw [hl, List.cons_append] at honce
    obtain ⟨hnot, hrest⟩ := List.nodup_cons.mp honce
    rw [List.mem_append, not_or] at hnot
    have hstat := h.closed_of_mem (t := t) (by simp [hl])
    have hclosed := h.closed hstat
    simp only [hl, List.mem_cons, true_or, decide_true, hnot.2, decide_false] at hclosed
    have hcollected := hclosed.collected
    have hdefunct : ∀ u ≠ t, u ∈ rest ↔ u ∈ s.defunct := fun u hut => by
      rw [hl, List.mem_cons]
      exact (or_iff_right hut).symm
    cases hstatic : rtObjectIsSystemobject (s.thread t).type with
    | true =>
      rw [hstatic] at hcollected
      rw [if_pos rfl]
      refine h.put hrest hdefunct (fun _ _ => Iff.rfl) (.of_closed hstat ?_)
      rwa [decide_eq_false hnot.1, decide_eq_false hnot.2]
    | false =>
      rw [hstatic] at hcollected
      rw [if_neg Bool.false_ne_true]
      refine h.put ?_ hdefunct (fun u hut => ?_) (.of_closed hstat ?_)
      · exact List.perm_middle.nodup_iff.mpr honce
      · rw [List.mem_cons]
        exact or_iff_right hut
      · rwa [decide_eq_false hnot.1, decide_eq_true List.mem_cons_self]

theorem release (h : Inv s) (ht : t ∈ s.reclaiming) : Inv (s.release t) := by
  obtain ⟨-, hnodup, hdisjoint⟩ := List.nodup_append.mp h.once
  have hd : t ∉ s.defunct := fun hd => hdisjoint t hd t ht rfl
  have hstat := h.closed_of_mem (List.mem_append_right s.defunct ht)
  have hclosed := h.closed hstat
  simp only [hd, ht, decide_true, decide_false] at hclosed
  rw [System.release_eq]
  refine h.put (h.once.sublist ((List.Sublist.refl _).append List.erase_sublist))
    (fun _ _ => Iff.rfl) (fun u hut => List.mem_erase_of_ne hut) (.of_closed hstat ?_)
  rw [decide_eq_false hd, decide_eq_false fun hmem => (hnodup.mem_erase_iff.mp hmem).1 rfl]
  exact hclosed.released

theorem step {s' : System Id} {e : Event Id} (h : Inv s) (hstep : step s e = some s') :
    Inv s' := by
  cases e with
  | init t =>
    obtain ⟨ht, ⟨⟩⟩ := Option.ite_none_right_eq_some.mp hstep
    obtain ⟨-, ha, hd, hc⟩ := h.absent ht
    unfold System.rtThreadInit
    rw [System.setThread_eq]
    refine h.put_record ⟨⟨rfl, rfl, ?_, ?_⟩, decide_eq_false hd, decide_eq_false hc⟩
    · rw [ha]
      rfl
    · rw [ha]
  | create t =>
    obtain ⟨ht, ⟨⟩⟩ := Option.ite_none_right_eq_some.mp hstep
    obtain ⟨-, ha, hd, hc⟩ := h.absent ht
    unfold System.rtThreadCreate
    rw [System.setThread_eq, System.setAccount_eq, System.put_put, System.thread_put]
    exact h.put_record ⟨⟨rfl, rfl, rfl, rfl⟩, decide_eq_false hd, decide_eq_false hc⟩
  | startup t =>
    obtain ⟨ht, ⟨⟩⟩ := Option.ite_none_right_eq_some.mp hstep
    obtain ⟨hlive, hd, hc⟩ := h.live (.inl ht.1)
    unfold System.rtThreadStartup
    rw [System.setThread_eq]
    exact h.put_record ⟨⟨hlive.contained, hlive.timerType, hlive.type, hlive.account⟩,
      decide_eq_false hd, decide_eq_false hc⟩
  | setCleanup t cleanup =>
    obtain ⟨ht, ⟨⟩⟩ := Option.ite_none_right_eq_some.mp hstep
    obtain ⟨hlive, hd, hc⟩ := h.live ht
    unfold System.setCleanup
    rw [System.setThread_eq]
    exact h.put_record (.of_live ht
      ⟨hlive.contained, hlive.timerType, hlive.type, hlive.account⟩
      (decide_eq_false hd) (decide_eq_false hc))
  | exit t =>
    obtain ⟨ht, ⟨⟩⟩ := Option.ite_none_right_eq_some.mp hstep
    exact h.exit ht.1
  | detach t =>
    obtain ⟨ht, ⟨⟩⟩ := Option.ite_none_right_eq_some.mp hstep
    exact h.detach ht.2.2 ht.2.1
  | delete t =>
    obtain ⟨ht, ⟨⟩⟩ := Option.ite_none_right_eq_some.mp hstep
    exact h.delete ht.2.2 ht.2.1
  | collect =>
    obtain rfl := Option.some.inj hstep
    exact h.collect
  | release t =>
    obtain ⟨ht, ⟨⟩⟩ := Option.ite_none_right_eq_some.mp hstep
    exact h.release ht.1

end Inv

/-! ## The threads that come out wrong -/

/-- A static thread that has been closed with a cleanup function. -/
def Spoiled (s : System Id) (t : Id) : Prop :=
  (s.thread t).stat = .close ∧ (s.account t).dynamic = false ∧ (s.thread t).cleanup = true

theorem Inv.reclaimed_iff_not_spoiled {s : System Id} (h : Inv s) :
    Reclaimed s ↔ ∀ t, Ended s t → ¬ Spoiled s t := by
  refine forall₂_congr fun t hended => ?_
  have hclosed := h.closed hended.1
  rw [decide_eq_false hended.2.1, decide_eq_false hended.2.2] at hclosed
  rw [hclosed.settled_iff]
  unfold Spoiled
  rw [hended.1]
  cases (s.account t).dynamic with
  | true => simp
  | false => simp

theorem spoiled_put_iff {s : System Id} (h : ∀ u, ¬ Spoiled s u) (t : Id) (r : RtThread)
    (a : Account) (d c : List Id) : (∀ u, ¬ Spoiled (s.put t r a d c) u) ↔
      ¬ (r.stat = .close ∧ a.dynamic = false ∧ r.cleanup = true) := by
  constructor
  · intro hall
    simpa [Spoiled] using hall t
  · intro ht u
    by_cases hut : u = t
    · subst hut
      simpa [Spoiled] using ht
    · simpa [Spoiled, System.put, Function.update_of_ne hut] using h u

/-- A step spoils a thread exactly if it is not tidy. -/
theorem Inv.spoiled_step_iff {s s' : System Id} {e : Event Id} (h : Inv s)
    (hs : ∀ u, ¬ Spoiled s u) (hstep : Reclaim.step s e = some s') :
    (∀ u, ¬ Spoiled s' u) ↔ Tidy s e := by
  cases e with
  | init t =>
    obtain ⟨-, ⟨⟩⟩ := Option.ite_none_right_eq_some.mp hstep
    unfold System.rtThreadInit
    rw [System.setThread_eq, spoiled_put_iff hs]
    exact iff_of_true nofun trivial
  | create t =>
    obtain ⟨-, ⟨⟩⟩ := Option.ite_none_right_eq_some.mp hstep
    unfold System.rtThreadCreate
    rw [System.setThread_eq, System.setAccount_eq, System.put_put, spoiled_put_iff hs,
      System.thread_put]
    exact iff_of_true nofun trivial
  | startup t =>
    obtain ⟨-, ⟨⟩⟩ := Option.ite_none_right_eq_some.mp hstep
    unfold System.rtThreadStartup
    rw [System.setThread_eq, spoiled_put_iff hs]
    exact iff_of_true nofun trivial
  | setCleanup t cleanup =>
    obtain ⟨ht, ⟨⟩⟩ := Option.ite_none_right_eq_some.mp hstep
    unfold System.setCleanup
    rw [System.setThread_eq, spoiled_put_iff hs]
    refine iff_of_true (fun hspoiled => ?_) trivial
    obtain ht | ht := ht
    · rw [ht] at hspoiled
      cases hspoiled.1
    · rw [ht] at hspoiled
      cases hspoiled.1
  | exit t =>
    obtain ⟨ht, ⟨⟩⟩ := Option.ite_none_right_eq_some.mp hstep
    have hstatic := (h.live (.inr ht.1)).1.isSystemobject
    unfold System.rtThreadExit
    split
    · rename_i hplain
      rw [System.close_rtObjectDetach_eq, spoiled_put_iff hs]
      exact iff_of_true (fun hspoiled => by simp [hplain.2] at hspoiled) fun _ => hplain.2
    · rw [System.close_insertDefunct_eq, spoiled_put_iff hs]
      simp [Tidy, hstatic]
  | detach t =>
    obtain ⟨ht, ⟨⟩⟩ := Option.ite_none_right_eq_some.mp hstep
    have hlive := (h.live (h.live_of_timerAttached ht.2.2)).1
    have hdynamic : (s.account t).dynamic = false := by
      simpa [hlive.isSystemobject] using ht.2.1
    unfold System.rtThreadDetach
    rw [System.close_rtObjectDetach_eq]
    split
    · rename_i hcleanup
      refine iff_of_false (fun hall => ?_) fun htidy => by simp [Tidy, hcleanup] at htidy
      refine (spoiled_put_iff hs t _ _ _ _).mp hall ⟨rfl, hdynamic, hcleanup⟩
    · rename_i hcleanup
      rw [spoiled_put_iff hs]
      exact iff_of_true (fun hspoiled => hcleanup hspoiled.2.2) (Bool.eq_false_iff.mpr hcleanup)
  | delete t =>
    obtain ⟨ht, ⟨⟩⟩ := Option.ite_none_right_eq_some.mp hstep
    have hlive := (h.live (h.live_of_timerAttached ht.2.2)).1
    have hdynamic : (s.account t).dynamic = true := by
      simpa [hlive.isSystemobject] using ht.2.1
    unfold System.rtThreadDelete
    rw [System.close_insertDefunct_eq, spoiled_put_iff hs]
    exact iff_of_true (fun hspoiled => by simp [hdynamic] at hspoiled) trivial
  | collect =>
    obtain rfl := Option.some.inj hstep
    refine iff_of_true ?_ trivial
    cases hl : s.defunct with
    | nil => rwa [System.collect_nil hl]
    | cons t rest =>
      rw [System.collect_cons hl, spoiled_put_iff hs]
      exact hs t
  | release t =>
    obtain ⟨-, ⟨⟩⟩ := Option.ite_none_right_eq_some.mp hstep
    rw [System.release_eq, spoiled_put_iff hs]
    exact iff_of_true (hs t) trivial

/-- What the idle thread does leaves a spoiled thread spoiled. -/
theorem Spoiled.idle {s s' : System Id} {e : Event Id} {u : Id} (h : Spoiled s u) (he : e.Idle)
    (hstep : step s e = some s') : Spoiled s' u := by
  have hput : ∀ t r a d c, r.stat = (s.thread t).stat → r.cleanup = (s.thread t).cleanup →
      a.dynamic = (s.account t).dynamic → Spoiled (s.put t r a d c) u := by
    intro t r a d c hstat hcleanup hdynamic
    by_cases hut : u = t
    · subst hut
      simpa [Spoiled, hstat, hcleanup, hdynamic] using h
    · simpa [Spoiled, System.put, Function.update_of_ne hut] using h
  cases e with
  | init | create | startup | setCleanup | exit | detach | delete => exact he.elim
  | collect =>
    obtain rfl := Option.some.inj hstep
    cases hl : s.defunct with
    | nil => rwa [System.collect_nil hl]
    | cons t rest =>
      rw [System.collect_cons hl]
      exact hput t _ _ _ _ rfl rfl rfl
  | release t =>
    obtain ⟨-, ⟨⟩⟩ := Option.ite_none_right_eq_some.mp hstep
    rw [System.release_eq]
    exact hput t _ _ _ _ rfl rfl rfl

/-- The idle thread can go on until it has nothing left to do, and a spoiled thread is spoiled
then. -/
def Drains (s : System Id) : Prop :=
  ∃ es, (∀ e ∈ es, Event.Idle e) ∧ ∃ s', run step s es = some s' ∧
    s'.defunct = [] ∧ s'.reclaiming = [] ∧ ∀ u, Spoiled s u → Spoiled s' u

theorem Drains.of_empty {s : System Id} (hd : s.defunct = []) (hc : s.reclaiming = []) :
    Drains s :=
  ⟨[], nofun, s, rfl, hd, hc, fun _ hu => hu⟩

theorem Drains.of_step {s s' : System Id} {e : Event Id} (h : Drains s') (he : e.Idle)
    (hstep : step s e = some s') : Drains s := by
  obtain ⟨es, hidle, s₂, hrun, hd, hc, hspoiled⟩ := h
  refine ⟨e :: es, fun e' he' => ?_, s₂, ?_, hd, hc, fun u hu => hspoiled u (hu.idle he hstep)⟩
  · obtain rfl | he' := List.mem_cons.mp he'
    · exact he
    · exact hidle e' he'
  · rw [run_cons, hstep]
    exact hrun

/-- Each of its steps takes a thread from one of the lists, or moves one to the second. -/
theorem Inv.drains (n : Nat) {s : System Id} (h : Inv s)
    (hn : 2 * s.defunct.length + s.reclaiming.length ≤ n) : Drains s := by
  induction n generalizing s with
  | zero =>
    exact .of_empty (List.length_eq_zero_iff.mp (by omega)) (List.length_eq_zero_iff.mp (by omega))
  | succ n ih =>
    cases hc : s.reclaiming with
    | cons t rest =>
      have ht : t ∈ s.reclaiming := by simp [hc]
      have hclosed := h.closed (h.closed_of_mem (List.mem_append_right s.defunct ht))
      rw [decide_eq_true ht] at hclosed
      have hplain : (s.thread t).type = 0 :=
        hclosed.type.resolve_right fun hstatic => Bool.noConfusion hstatic.2.2.2
      have hstep : Reclaim.step s (.release t) = some (s.release t) :=
        if_pos ⟨ht, by rw [hplain]; rfl⟩
      refine (ih (h.step hstep) ?_).of_step (show Event.Idle (.release t) from trivial) hstep
      rw [System.release_eq]
      have hlen := List.length_erase_of_mem ht
      have hpos := List.length_pos_of_mem ht
      dsimp only [System.put]
      omega
    | nil =>
      cases hd : s.defunct with
      | nil => exact .of_empty hd hc
      | cons t rest =>
        have hstep : Reclaim.step s .collect = some s.collect := rfl
        refine (ih (h.step hstep) ?_).of_step (show Event.Idle .collect from trivial) hstep
        rw [hd, List.length_cons] at hn
        rw [System.collect_cons hd]
        dsimp only [System.put]
        split
        · rw [hc] at hn ⊢
          simp only [List.length_nil] at hn ⊢
          omega
        · rw [hc] at hn ⊢
          simp only [List.length_cons, List.length_nil] at hn ⊢
          omega

/-! ## Whole runs -/

/-- If a thread is spoiled on the way, the idle thread can come to leave it so. -/
theorem tidy_of_reclaimed {s : System Id} (h : Inv s) (hs : ∀ u, ¬ Spoiled s u)
    {es : List (Event Id)}
    (hall : ∀ pre, pre <+: es → ∀ idle, (∀ e ∈ idle, Event.Idle e) →
      Throughout step Reclaimed s (pre ++ idle)) : Along step Tidy s es := by
  induction es generalizing s with
  | nil => trivial
  | cons e es ih =>
    intro s₁ hstep
    have h₁ := h.step hstep
    have hs₁ : ∀ u, ¬ Spoiled s₁ u := by
      intro u hu
      obtain ⟨idle, hidle, s₂, hrun, hd, hc, hspoiled⟩ := h₁.drains _ (Nat.le_refl _)
      have hthrough := hall [e] (List.cons_prefix_cons.mpr ⟨rfl, List.nil_prefix⟩) idle hidle
      have hreclaimed : Reclaimed s₂ := (hthrough.2 s₁ hstep).last hrun
      have h₂ : Inv s₂ := run_invariant (fun _ _ _ hi => hi.step) h₁ hrun
      have hu₂ := hspoiled u hu
      refine h₂.reclaimed_iff_not_spoiled.mp hreclaimed u ⟨hu₂.1, ?_, ?_⟩ hu₂
      · rw [hd]
        exact List.not_mem_nil
      · rw [hc]
        exact List.not_mem_nil
    refine ⟨(h.spoiled_step_iff hs hstep).mp hs₁, ih h₁ hs₁ fun pre hpre idle hidle => ?_⟩
    exact (hall (e :: pre) (List.cons_prefix_cons.mpr ⟨rfl, hpre⟩) idle hidle).2 s₁ hstep

/-- Whatever threads are made and closed, every thread that has ended comes out right, at every
point of a run and whatever the idle thread does next there, exactly if no static thread is
closed with a cleanup function. -/
theorem reclaimed_iff (es : List (Event Id)) :
    (∀ pre, pre <+: es → ∀ idle, (∀ e ∈ idle, Event.Idle e) →
      Throughout step Reclaimed {} (pre ++ idle)) ↔ Along step Tidy {} es := by
  have hstart : ∀ u : Id, ¬ Spoiled {} u := fun u hu => nomatch hu.1
  refine ⟨tidy_of_reclaimed inv_start hstart, fun hgood pre hpre idle hidle => ?_⟩
  obtain ⟨rest, rfl⟩ := hpre
  have hpre := ((along_append _ _ _).mp hgood).1
  have hidle' : ∀ s, Along step Tidy s idle := along_of_forall fun e he s => by
    have := hidle e he
    cases e with
    | collect => trivial
    | release => trivial
    | init | create | startup | setCleanup | exit | detach | delete => exact this.elim
  refine throughout_of_along (J := fun s : System Id => Inv s ∧ ∀ u, ¬ Spoiled s u)
    (fun _ h => h.1.reclaimed_iff_not_spoiled.mpr fun t _ => h.2 t)
    (fun _ _ _ h htidy hstep => ⟨h.1.step hstep, (h.1.spoiled_step_iff h.2 hstep).mpr htidy⟩)
    ⟨inv_start, hstart⟩ ((along_append _ _ _).mpr ⟨hpre, fun t _ => hidle' t⟩)

/-- A static thread with a cleanup function is detached: its stack and its control block are
freed. -/
theorem static_thread_freed :
    ¬ ∀ pre, pre <+: [Event.init (), .startup (), .setCleanup () true, .detach ()] →
      ∀ idle, (∀ e ∈ idle, Event.Idle e) → Throughout step Reclaimed {} (pre ++ idle) := fun h => by
  have hrun := h _ (List.prefix_refl _) [.collect, .release ()] (by simp [Event.Idle])
  have hend := (hrun.2 _ rfl).2 _ rfl |>.2 _ rfl |>.2 _ rfl |>.2 _ rfl |>.2 _ rfl
  have hsettled := hend () ⟨by decide, by decide, by decide⟩
  exact absurd hsettled.2.2.1 (by decide)

end ControlRTT.Kernel.Reclaim

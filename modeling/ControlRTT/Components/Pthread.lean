import ControlRTT.Lib.Runs

/-! # The end of a POSIX thread

`pthread_exit`, `pthread_join` and `pthread_detach` of `components/libc/pthreads/pthread.c`, and
what `rt_thread_exit` and the idle thread (`idle.c`) do with a thread that ends. The thread, the
idle thread and the one that joins or detaches it take turns; what each does with interrupts off,
with the scheduler locked or to one of the resources is one step. Cleanup handlers and
thread-specific data are left out. A thread that is detached when it
ends is never released, one that calls `pthread_exit` is released by the idle thread too, and one
that is detached between its end and the cleanup is released before the idle thread comes to it.
A joinable thread that returns and is joined, or is detached behind the cleanup, is released once
(`release_throughout`). -/
namespace ControlRTT.Components.Pthread
open Lib.Runs

/-- The data block, the thread object, the stack that `pthread_create` allocates, and the
semaphore. -/
inductive Resource
  | data
  | thread
  | stack
  | sem
  deriving DecidableEq, Repr

/-- The thread: in its entry; in `rt_thread_exit`; in `pthread_exit`, before the test of
`detachstate`, before `rt_sem_release`, and before `rt_thread_detach`; it does not come back from
the last step. -/
inductive Self
  | running
  | returned
  | exiting
  | releasing
  | detaching
  | ended
  deriving DecidableEq, Repr

/-- The idle thread: looking for threads that have ended; before it frees the stack; and before
`rt_object_delete`. -/
inductive Idle
  | looking
  | freeingStack
  | deleting
  deriving DecidableEq, Repr

/-- The thread that calls `pthread_join` or `pthread_detach`: before the test of `detachstate` of
the first; before `rt_sem_take`; in the list of the semaphore; behind `rt_sem_take`. Then it is in
`pthread_detach`, which `joined` says that `pthread_join` has called: before the test of
`detachstate`; before that of `stat`; before `rt_sem_delete`, `rt_thread_detach` and each
`rt_free`; or before it makes a running thread a detached one. -/
inductive Other
  | joining
  | taking
  | waiting
  | taken
  | detaching (joined : Bool)
  | closing (joined : Bool)
  | deletingSem (joined : Bool)
  | detachingThread (joined : Bool)
  | freeingStack (joined : Bool)
  | freeingThread (joined : Bool)
  | freeingData (joined : Bool)
  | leaving (joined : Bool)
  | done
  deriving DecidableEq, Repr

/-- A thread of `pthread_create`, and those that deal with its end. `joinable` is how it was
created, and `stackBase` says that its creator gave the stack. `freed` is what has been freed, the
last first, and `wrong` says that something was used or freed that had been freed before. -/
structure System where
  joinable : Bool
  stackBase : Bool
  detached : Bool := !joinable
  joinableSem : Bool := joinable
  semValue : Nat := 0
  closed : Bool := false
  systemObject : Bool := true
  cleanup : Bool := true
  defunct : Bool := false
  freed : List Resource := []
  wrong : Bool := false
  self : Self := .running
  idle : Idle := .looking
  other : Other
  deriving DecidableEq, Repr

/-- A thread is created detached, or joinable, and then another joins or detaches it. -/
inductive Kind
  | detached
  | joined
  | detachedLater
  deriving DecidableEq, Repr

inductive Event
  | ret
  | exit
  | self
  | idle
  | other
  deriving DecidableEq, Repr

namespace System

/-! ## The resources -/

def use (s : System) (rs : List Resource) : System :=
  { s with wrong := s.wrong || rs.any (· ∈ s.freed) }

def free (s : System) (r : Resource) : System :=
  { s with freed := r :: s.freed, wrong := s.wrong || r ∈ s.freed }

/-- `rt_free` of `stack_addr`; a stack that the creator gave is not one of the resources. -/
def freeStack (s : System) : System :=
  if s.stackBase then s else s.free .stack

/-- `rt_sem_release` of `joinable_sem`: the thread that waits goes on. -/
def semRelease (s : System) : System :=
  let s := s.use [.data, .sem]
  if s.other = .waiting then { s with other := .taken } else { s with semValue := s.semValue + 1 }

/-- `rt_thread_detach` -/
def threadDetach (s : System) : System :=
  let s := { s.use [.data, .thread] with closed := true, systemObject := false }
  if s.cleanup then { s with defunct := true } else s

/-! ## The thread -/

/-- `rt_thread_exit` -/
def threadExit (s : System) : System :=
  let s := { s.use [.thread, .stack] with closed := true }
  if s.systemObject ∧ !s.cleanup then { s with systemObject := false }
  else { s with defunct := true }

/-- The next step of the thread. -/
def goSelf (s : System) : Option System :=
  match s.self with
  | .running => none
  | .returned => some { s.threadExit with self := .ended }
  | .exiting =>
    let s := s.use [.data, .stack]
    some { s with self := if s.detached then .detaching else .releasing }
  | .releasing => some { (s.use [.stack]).semRelease with self := .detaching }
  | .detaching => some { (s.use [.stack]).threadDetach with self := .ended }
  | .ended => none

/-! ## The idle thread -/

/-- `_pthread_cleanup`; `pthread_detach` returns at its first test when the thread is detached. -/
def pthreadCleanup (s : System) : System :=
  let s := { s.use [.thread, .data] with cleanup := false }
  if s.detached then s.use [.thread, .data] else s.semRelease

/-- The part of `rt_thread_idle_excute` with interrupts off. -/
def reap (s : System) : System :=
  let s := { s.use [.thread] with defunct := false }
  let s := if s.cleanup then s.pthreadCleanup else s
  { s with idle := if s.systemObject then .looking else .freeingStack }

def goIdle (s : System) : Option System :=
  match s.idle with
  | .looking => if s.defunct then some s.reap else none
  | .freeingStack => some { (s.use [.thread]).freeStack with idle := .deleting }
  | .deleting => some { s.free .thread with idle := .looking }

/-! ## The one that joins or detaches it -/

def goOther (s : System) : Option System :=
  match s.other with
  | .joining =>
    let s := s.use [.thread, .data]
    some { s with other := if s.detached then .done else .taking }
  | .taking =>
    let s := s.use [.data, .sem]
    if 0 < s.semValue then some { s with semValue := s.semValue - 1, other := .taken }
    else some { s with other := .waiting }
  | .waiting => none
  | .taken => some { s.use [.data] with other := .detaching true }
  | .detaching joined =>
    let s := s.use [.thread, .data]
    some { s with other := if s.detached then .done else .closing joined }
  | .closing joined =>
    let s := s.use [.thread]
    some { s with other := if s.closed then .deletingSem joined else .leaving joined }
  | .deletingSem joined =>
    let s := s.use [.data]
    let s := if s.joinableSem then (s.use [.sem]).free .sem else s
    some { s with other := .detachingThread joined }
  | .detachingThread joined => some { s.threadDetach with other := .freeingStack joined }
  | .freeingStack joined =>
    some { (s.use [.data, .thread]).freeStack with other := .freeingThread joined }
  | .freeingThread joined => some { (s.use [.data]).free .thread with other := .freeingData joined }
  | .freeingData _ => some { s.free .data with other := .done }
  | .leaving _ =>
    let s := (s.use [.data, .sem]).free .sem
    some { s with detached := true, joinableSem := false, other := .done }
  | .done => none

/-- The thread returns from its entry, or calls `pthread_exit`, or one of the three goes on. -/
def step (s : System) : Event → Option System
  | .ret =>
    if s.self = .running then some { s.use [.data, .stack] with self := .returned } else none
  | .exit =>
    if s.self = .running then
      some { s.use [.thread, .data, .stack] with self := .exiting }
    else none
  | .self => s.goSelf
  | .idle => s.goIdle
  | .other => s.goOther

/-- `pthread_create`, for a thread that another will join or detach. -/
def start (kind : Kind) (stackBase : Bool) : System where
  joinable := kind ≠ .detached
  stackBase := stackBase
  other :=
    match kind with
    | .detached => .done
    | .joined => .joining
    | .detachedLater => .detaching false

/-! ## What is asked -/

/-- Nobody has anything left to do. -/
def Finished (s : System) : Prop :=
  s.self = .ended ∧ s.idle = .looking ∧ s.defunct = false ∧ s.other = .done

structure Agrees (s : System) : Prop where
  /-- Nothing has been used or freed that had been freed. -/
  safe : s.wrong = false
  complete : s.Finished → .data ∈ s.freed ∧ .thread ∈ s.freed ∧
    (s.stackBase = false → .stack ∈ s.freed) ∧ (s.joinable = true → .sem ∈ s.freed)

/-- Where another thread detaches it, the test finds it closed, and the idle thread has done the
cleanup before the semaphore is deleted. -/
def GoesWell (s : System) : Other → Prop
  | .closing false => s.closed = true
  | .deletingSem false => s.cleanup = false
  | _ => True

/-- The thread was made joinable, and returns. -/
def Sound (s : System) : Event → Prop
  | .ret => s.joinable = true
  | .exit => False
  | .other => s.GoesWell s.other
  | _ => True

end System

/-! ## The invariant -/

namespace Other

/-- What the other thread has freed. -/
def freed (stackBase : Bool) : Other → List Resource
  | .detachingThread _ | .freeingStack _ => [.sem]
  | .freeingThread _ => if stackBase then [.sem] else [.stack, .sem]
  | .freeingData _ => if stackBase then [.thread, .sem] else [.thread, .stack, .sem]
  | .done => if stackBase then [.data, .thread, .sem] else [.data, .thread, .stack, .sem]
  | _ => []

/-- It knows that the cleanup has been done. -/
def released : Other → Bool
  | .taken => true
  | .detaching joined | .closing joined | .deletingSem joined => joined
  | .detachingThread _ | .freeingStack _ | .freeingThread _ | .freeingData _ | .done => true
  | _ => false

end Other

structure System.Inv (s : System) : Prop where
  joinable : s.joinable = true
  attached : s.detached = false ∧ s.joinableSem = true
  idle : s.idle = .looking
  safe : s.wrong = false
  freed : s.freed = s.other.freed s.stackBase
  self : s.self = .running ∨ s.self = .returned ∨ s.self = .ended
  closed : s.closed = decide (s.self = .ended)
  defunct : s.defunct = (s.closed && s.cleanup)
  cleanup : s.closed = false → s.cleanup = true
  object : s.cleanup = true → s.systemObject = true
  released : s.other.released = true ∨ 0 < s.semValue → s.cleanup = false
  notLeaving : ∀ joined, s.other ≠ .leaving joined

namespace System
variable {s : System}

theorem use_of_not_mem {rs : List Resource} (hrs : ∀ r ∈ rs, r ∉ s.freed) : s.use rs = s := by
  have hany : rs.any (· ∈ s.freed) = false := by
    refine List.any_eq_false.mpr fun r hr => ?_
    simpa using hrs r hr
  unfold use
  rw [hany, Bool.or_false]

theorem free_of_not_mem {r : Resource} (hr : r ∉ s.freed) :
    s.free r = { s with freed := r :: s.freed } := by
  unfold free
  simp [hr]

/-- Nothing has been freed before the cleanup. -/
theorem Inv.freed_of_cleanup (h : s.Inv) (hcleanup : s.cleanup = true) : s.freed = [] := by
  rw [h.freed]
  cases hother : s.other with
  | detachingThread _ | freeingStack _ | freeingThread _ | freeingData _ | done =>
    have hfalse := h.released (.inl (by rw [hother]; rfl))
    cases hcleanup.symm.trans hfalse
  | _ => rfl

theorem Inv.use_of_cleanup (h : s.Inv) (hcleanup : s.cleanup = true) (rs : List Resource) :
    s.use rs = s := by
  refine use_of_not_mem fun r _ => ?_
  rw [h.freed_of_cleanup hcleanup]
  exact List.not_mem_nil

theorem Inv.cleanup_of_self (h : s.Inv) (hself : s.self ≠ .ended) :
    s.closed = false ∧ s.cleanup = true := by
  have hclosed := h.closed
  rw [decide_eq_false hself] at hclosed
  exact ⟨hclosed, h.cleanup hclosed⟩

theorem Inv.ret (h : s.Inv) {s' : System} (hstep : s.step .ret = some s') : s'.Inv := by
  unfold step at hstep
  dsimp only at hstep
  split at hstep
  · rename_i hself
    obtain ⟨hclosed, hcleanup⟩ := h.cleanup_of_self (by rw [hself]; simp)
    obtain rfl := Option.some.inj hstep
    rw [h.use_of_cleanup hcleanup]
    exact ⟨h.joinable, h.attached, h.idle, h.safe, h.freed, .inr (.inl rfl), hclosed, h.defunct,
      h.cleanup, h.object, h.released, h.notLeaving⟩
  · cases hstep

theorem Inv.goSelf (h : s.Inv) {s' : System} (hstep : s.goSelf = some s') : s'.Inv := by
  unfold System.goSelf at hstep
  obtain hself | hself | hself := h.self
  · rw [hself] at hstep
    cases hstep
  · obtain ⟨hclosed, hcleanup⟩ := h.cleanup_of_self (by rw [hself]; simp)
    rw [hself] at hstep
    obtain rfl := Option.some.inj hstep
    unfold threadExit
    rw [h.use_of_cleanup hcleanup]
    simp only [hcleanup, Bool.not_true, Bool.false_eq_true, and_false, if_false]
    exact ⟨h.joinable, h.attached, h.idle, h.safe, h.freed, .inr (.inr rfl), rfl, rfl,
      fun hfalse => (by cases hfalse), fun _ => h.object hcleanup,
      fun hreleased => (hcleanup.symm.trans (h.released hreleased)), h.notLeaving⟩
  · rw [hself] at hstep
    cases hstep

theorem Inv.reap_eq (h : s.Inv) (hcleanup : s.cleanup = true) : s.reap =
    if s.other = .waiting then { s with cleanup := false, defunct := false, other := .taken }
    else { s with cleanup := false, defunct := false, semValue := s.semValue + 1 } := by
  unfold reap
  rw [h.use_of_cleanup hcleanup]
  simp only [hcleanup, if_true, pthreadCleanup, semRelease, use, h.freed_of_cleanup hcleanup,
    List.not_mem_nil, decide_false, List.any_cons, List.any_nil, Bool.or_false, h.safe,
    h.attached.1, Bool.false_eq_true, if_false]
  split <;> simp only [h.object hcleanup, if_true, h.idle]

/-- The cleanup: the one that waits goes on, or will not have to wait. -/
theorem Inv.goIdle (h : s.Inv) {s' : System} (hstep : s.goIdle = some s') : s'.Inv := by
  unfold System.goIdle at hstep
  rw [h.idle] at hstep
  dsimp only at hstep
  split at hstep
  · rename_i hdefunct
    obtain rfl := Option.some.inj hstep
    have hboth := h.defunct
    rw [hdefunct, eq_comm, Bool.and_eq_true] at hboth
    obtain ⟨hclosed, hcleanup⟩ := hboth
    have hfreed := h.freed_of_cleanup hcleanup
    rw [h.reap_eq hcleanup]
    split
    · exact ⟨h.joinable, h.attached, h.idle, h.safe, hfreed, h.self, h.closed, by simp,
        fun hnot => (hclosed.symm.trans hnot).symm, fun hnot => (by cases hnot),
        fun _ => rfl, fun _ => by simp⟩
    · exact ⟨h.joinable, h.attached, h.idle, h.safe, h.freed, h.self, h.closed, by simp,
        fun hnot => (hclosed.symm.trans hnot).symm, fun hnot => (by cases hnot),
        fun _ => rfl, h.notLeaving⟩
  · cases hstep

/-! ## The steps of the other thread -/

theorem Inv.use_of_other (h : s.Inv) {other : Other} (hother : s.other = other)
    {rs : List Resource} (hrs : ∀ r ∈ rs, r ∉ other.freed s.stackBase) : s.use rs = s := by
  subst hother
  refine use_of_not_mem fun r hr => ?_
  rw [h.freed]
  exact hrs r hr

theorem Inv.closed_of_cleanup (h : s.Inv) (hcleanup : s.cleanup = false) : s.closed = true := by
  cases hclosed : s.closed with
  | true => rfl
  | false => cases (h.cleanup hclosed).symm.trans hcleanup

/-- It goes on, and has freed what is known of it. -/
theorem Inv.on (h : s.Inv) {other : Other} {freed : List Resource} {semValue : Nat}
    {systemObject : Bool} (hfreed : freed = other.freed s.stackBase)
    (hreleased : other.released = true ∨ 0 < semValue → s.cleanup = false)
    (hobject : s.cleanup = true → systemObject = true) (hnot : ∀ joined, other ≠ .leaving joined) :
    Inv { s with other, freed, semValue, systemObject } :=
  ⟨h.joinable, h.attached, h.idle, h.safe, hfreed, h.self, h.closed, h.defunct, h.cleanup, hobject,
    hreleased, hnot⟩

/-- `pthread_join` up to `pthread_detach`. -/
theorem Inv.goJoin (h : s.Inv) {s' : System}
    (hother : s.other = .joining ∨ s.other = .taking ∨ s.other = .taken)
    (hstep : s.goOther = some s') : s'.Inv := by
  have hattached : ¬s.detached = true := by simp [h.attached.1]
  unfold System.goOther at hstep
  obtain hother | hother | hother := hother
  · rw [hother] at hstep
    dsimp only at hstep
    rw [h.use_of_other hother (by simp [Other.freed]), if_neg hattached] at hstep
    obtain rfl := Option.some.inj hstep
    refine h.on (h.freed.trans (by rw [hother]; rfl)) (fun hreleased => h.released ?_) h.object
      (by simp)
    exact hreleased.imp (fun hfalse => by cases hfalse) id
  · rw [hother] at hstep
    dsimp only at hstep
    rw [h.use_of_other hother (by simp [Other.freed])] at hstep
    split at hstep
    · rename_i hvalue
      obtain rfl := Option.some.inj hstep
      exact h.on (h.freed.trans (by rw [hother]; rfl)) (fun _ => h.released (.inr hvalue)) h.object
        (by simp)
    · obtain rfl := Option.some.inj hstep
      refine h.on (h.freed.trans (by rw [hother]; rfl)) (fun hreleased => h.released ?_) h.object
        (by simp)
      exact hreleased.imp (fun hfalse => by cases hfalse) id
  · have hcleanup := h.released (.inl (by rw [hother]; rfl))
    rw [hother] at hstep
    dsimp only at hstep
    rw [h.use_of_other hother (by simp [Other.freed])] at hstep
    obtain rfl := Option.some.inj hstep
    exact h.on (h.freed.trans (by rw [hother]; rfl)) (fun _ => hcleanup) h.object (by simp)

/-- The tests of `pthread_detach`. -/
theorem Inv.goTests (h : s.Inv) {s' : System} {joined : Bool}
    (hother : s.other = .detaching joined ∨ s.other = .closing joined)
    (hsound : s.Sound .other) (hstep : s.goOther = some s') : s'.Inv := by
  have hattached : ¬s.detached = true := by simp [h.attached.1]
  have hreleased := h.released
  unfold System.goOther at hstep
  obtain hother | hother := hother
  · rw [hother] at hstep hreleased
    dsimp only at hstep
    rw [h.use_of_other hother (by simp [Other.freed]), if_neg hattached] at hstep
    obtain rfl := Option.some.inj hstep
    exact h.on (h.freed.trans (by rw [hother]; rfl)) hreleased h.object (by simp)
  · have hclosed : s.closed = true := by
      cases joined with
      | true => exact h.closed_of_cleanup (h.released (.inl (by rw [hother]; rfl)))
      | false =>
        unfold Sound at hsound
        rw [hother] at hsound
        exact hsound
    rw [hother] at hstep hreleased
    dsimp only at hstep
    rw [h.use_of_other hother (by simp [Other.freed]), if_pos hclosed] at hstep
    obtain rfl := Option.some.inj hstep
    exact h.on (h.freed.trans (by rw [hother]; rfl)) hreleased h.object (by simp)

/-- The cleanup has been done where it deletes the semaphore. -/
theorem Inv.cleanup_of_deletingSem (h : s.Inv) {joined : Bool}
    (hother : s.other = .deletingSem joined) (hsound : s.Sound .other) : s.cleanup = false := by
  cases joined with
  | true => exact h.released (.inl (by rw [hother]; rfl))
  | false =>
    unfold Sound at hsound
    rw [hother] at hsound
    exact hsound

/-- What `pthread_detach` frees. -/
theorem Inv.goFrees (h : s.Inv) {s' : System} (hcleanup : s.cleanup = false) {joined : Bool}
    (hother : s.other = .deletingSem joined ∨ s.other = .detachingThread joined ∨
      s.other = .freeingStack joined ∨ s.other = .freeingThread joined ∨
      s.other = .freeingData joined)
    (hstep : s.goOther = some s') : s'.Inv := by
  have hfreed := h.freed
  have hclosed := h.closed_of_cleanup hcleanup
  unfold System.goOther at hstep
  obtain hother | hother | hother | hother | hother := hother
  · rw [hother] at hstep hfreed
    dsimp only at hstep
    rw [h.use_of_other hother (by simp [Other.freed]), if_pos h.attached.2,
      h.use_of_other hother (by simp [Other.freed]),
      free_of_not_mem (by simp [hfreed, Other.freed])] at hstep
    obtain rfl := Option.some.inj hstep
    exact h.on (by rw [hfreed]; rfl) (fun _ => hcleanup) h.object (by simp)
  · have hdetach : s.threadDetach = { s with systemObject := false } := by
      unfold threadDetach
      rw [h.use_of_other hother (by simp [Other.freed])]
      simp only [hcleanup, Bool.false_eq_true, if_false, hclosed]
    rw [hother] at hstep hfreed
    dsimp only at hstep
    rw [hdetach] at hstep
    obtain rfl := Option.some.inj hstep
    exact h.on (by rw [hfreed]; rfl) (fun _ => hcleanup)
      (fun hnot => by cases hcleanup.symm.trans hnot) (by simp)
  · rw [hother] at hstep hfreed
    dsimp only [freeStack] at hstep
    rw [h.use_of_other hother (by simp [Other.freed])] at hstep
    split at hstep
    · rename_i hstack
      obtain rfl := Option.some.inj hstep
      exact h.on (by rw [hfreed, hstack]; rfl) (fun _ => hcleanup) h.object (by simp)
    · rename_i hstack
      rw [free_of_not_mem (by simp [hfreed, Other.freed])] at hstep
      obtain rfl := Option.some.inj hstep
      refine h.on ?_ (fun _ => hcleanup) h.object (by simp)
      rw [hfreed, Bool.eq_false_iff.mpr hstack]
      rfl
  · have hout : .thread ∉ s.freed ∧ .data ∉ s.freed := by
      rw [hfreed, hother]
      cases s.stackBase <;> simp [Other.freed]
    rw [hother] at hstep hfreed
    dsimp only at hstep
    rw [use_of_not_mem (by simpa using hout.2), free_of_not_mem hout.1] at hstep
    obtain rfl := Option.some.inj hstep
    refine h.on ?_ (fun _ => hcleanup) h.object (by simp)
    rw [hfreed]
    cases s.stackBase <;> rfl
  · have hout : .data ∉ s.freed := by
      rw [hfreed, hother]
      cases s.stackBase <;> simp [Other.freed]
    rw [hother] at hstep hfreed
    dsimp only at hstep
    rw [free_of_not_mem hout] at hstep
    obtain rfl := Option.some.inj hstep
    refine h.on ?_ (fun _ => hcleanup) h.object (by simp)
    rw [hfreed]
    cases s.stackBase <;> rfl

theorem Inv.goOther (h : s.Inv) (hsound : s.Sound .other) {s' : System}
    (hstep : s.goOther = some s') : s'.Inv := by
  have hreleased : s.other.released = true → s.cleanup = false :=
    fun hother => h.released (.inl hother)
  cases hother : s.other with
  | joining => exact h.goJoin (.inl hother) hstep
  | taking => exact h.goJoin (.inr (.inl hother)) hstep
  | taken => exact h.goJoin (.inr (.inr hother)) hstep
  | detaching joined => exact h.goTests (.inl hother) hsound hstep
  | closing joined => exact h.goTests (.inr hother) hsound hstep
  | deletingSem joined =>
    exact h.goFrees (h.cleanup_of_deletingSem hother hsound) (.inl hother) hstep
  | detachingThread joined =>
    exact h.goFrees (hreleased (by rw [hother]; rfl)) (.inr (.inl hother)) hstep
  | freeingStack joined =>
    exact h.goFrees (hreleased (by rw [hother]; rfl)) (.inr (.inr (.inl hother))) hstep
  | freeingThread joined =>
    exact h.goFrees (hreleased (by rw [hother]; rfl)) (.inr (.inr (.inr (.inl hother)))) hstep
  | freeingData joined =>
    exact h.goFrees (hreleased (by rw [hother]; rfl)) (.inr (.inr (.inr (.inr hother)))) hstep
  | leaving joined => exact absurd hother (h.notLeaving joined)
  | waiting | done =>
    unfold System.goOther at hstep
    rw [hother] at hstep
    cases hstep

theorem Inv.step (h : s.Inv) {e : Event} (hsound : s.Sound e) {s' : System}
    (hstep : s.step e = some s') : s'.Inv := by
  cases e with
  | ret => exact h.ret hstep
  | exit => exact hsound.elim
  | self => exact h.goSelf hstep
  | idle => exact h.goIdle hstep
  | other => exact h.goOther hsound hstep

theorem Inv.agrees (h : s.Inv) : s.Agrees := by
  refine ⟨h.safe, fun hfinished => ?_⟩
  rw [h.freed, hfinished.2.2.2]
  cases s.stackBase <;> simp [Other.freed]

/-- A thread that was created detached and has not ended. -/
structure Runs (s : System) : Prop where
  detached : s.joinable = false
  safe : s.wrong = false
  self : s.self = .running
  idle : s.idle = .looking
  defunct : s.defunct = false
  other : s.other = .done

theorem Runs.not_step (h : s.Runs) {e : Event} (hsound : s.Sound e) : s.step e = none := by
  cases e with
  | ret => cases h.detached.symm.trans hsound
  | exit => exact hsound.elim
  | self =>
    change s.goSelf = none
    unfold goSelf
    rw [h.self]
  | idle =>
    change s.goIdle = none
    unfold goIdle
    rw [h.idle]
    simp [h.defunct]
  | other =>
    change s.goOther = none
    unfold goOther
    rw [h.other]

theorem Runs.agrees (h : s.Runs) : s.Agrees := by
  refine ⟨h.safe, fun hfinished => ?_⟩
  cases h.self.symm.trans hfinished.1

theorem start_cases (kind : Kind) (stackBase : Bool) :
    (start kind stackBase).Inv ∨ (start kind stackBase).Runs := by
  cases kind with
  | detached => exact .inr ⟨rfl, rfl, rfl, rfl, rfl, rfl⟩
  | joined =>
    exact .inl ⟨rfl, ⟨rfl, rfl⟩, rfl, rfl, rfl, .inl rfl, rfl, rfl, fun _ => rfl, fun _ => rfl,
      by simp [start, Other.released], by simp [start]⟩
  | detachedLater =>
    exact .inl ⟨rfl, ⟨rfl, rfl⟩, rfl, rfl, rfl, .inl rfl, rfl, rfl, fun _ => rfl, fun _ => rfl,
      by simp [start, Other.released], by simp [start]⟩

end System

/-- Where no step goes wrong, everything is released once. -/
theorem release_throughout (kind : Kind) (stackBase : Bool) (es : List Event)
    (h : Along System.step System.Sound (System.start kind stackBase) es) :
    Throughout System.step System.Agrees (System.start kind stackBase) es := by
  refine throughout_of_along (J := fun s => s.Inv ∨ s.Runs) (fun s hs => ?_)
    (fun s e s' hs hsound hstep => ?_) (System.start_cases kind stackBase) h
  · exact hs.elim System.Inv.agrees System.Runs.agrees
  · rcases hs with hinv | hruns
    · exact .inl (hinv.step hsound hstep)
    · cases (hruns.not_step hsound).symm.trans hstep

instance (s : System) : DecidablePred s.GoesWell
  | .closing false => inferInstanceAs (Decidable (_ = _))
  | .deletingSem false => inferInstanceAs (Decidable (_ = _))
  | .joining | .taking | .waiting | .taken | .done | .leaving _ => isTrue trivial
  | .detaching _ | .closing true | .deletingSem true | .detachingThread _ => isTrue trivial
  | .freeingStack _ | .freeingThread _ | .freeingData _ => isTrue trivial

instance (s : System) : DecidablePred s.Sound
  | .ret => inferInstanceAs (Decidable (_ = _))
  | .exit => isFalse id
  | .self | .idle => isTrue trivial
  | .other => inferInstanceAs (Decidable (s.GoesWell s.other))

/-- A thread is joined and returns. -/
def joinedRun : List Event :=
  [Event.other, .other, .ret, .self, .idle] ++ List.replicate 8 Event.other

theorem release_throughout_joinedRun :
    (run System.step (System.start .joined false) joinedRun).map (·.freed) =
        some [.data, .thread, .stack, .sem] ∧
      Throughout System.step System.Agrees (System.start .joined false) joinedRun :=
  ⟨by decide +kernel, release_throughout .joined false joinedRun (by decide +kernel)⟩

/-- A detached thread returns. -/
theorem detached_kept : ¬ Throughout System.step System.Agrees (System.start .detached false)
    [.ret, .self, .idle] := by
  intro h
  obtain ⟨s, hrun, hfinished, hfreed⟩ : ∃ s, run System.step (System.start .detached false)
      [.ret, .self, .idle] = some s ∧ s.Finished ∧ s.freed = [] :=
    ⟨_, rfl, ⟨rfl, rfl, rfl, rfl⟩, rfl⟩
  have hdata := ((h.last hrun).complete hfinished).1
  rw [hfreed] at hdata
  cases hdata

end ControlRTT.Components.Pthread

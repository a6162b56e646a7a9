import ControlRTT.Components.PthreadCond
import ControlRTT.Lib.Runs
import Mathlib.Logic.Function.Basic

/-! # Read-write locks

`components/libc/pthreads/pthread_rwlock.c`, with the condition variables of `pthread_cond.c`, which
are semaphores, and the `rw_mutex` of `pthread_mutex.c`. Any threads call it, and what they do
between two calls of the mutex or of a semaphore is one step. `pthread_rwlock_destroy` keeps
`rw_mutex` when it finds the lock in use; a writer whose time has run out does not let the readers
on that waited for it; and a broadcast leaves one unit for all those that have not reached the
semaphore. Where none of that happens the lock does what it is for (`rwlock_throughout`). -/
namespace ControlRTT.Components.RwLock
open Lib.Runs Lib.Parties PthreadCond

/-- Readers wait for `rw_condreaders` and are counted in `rw_nwaitreaders`, and writers for
`rw_condwriters` and in `rw_nwaitwriters`. -/
inductive Kind
  | read
  | write
  deriving DecidableEq, Repr

/-- The `try` variants, the plain ones and the timed ones. -/
inductive Wait
  | never
  | forever
  | timed
  deriving DecidableEq, Repr

inductive Op
  | lock (kind : Kind) (wait : Wait)
  | unlock
  | destroy
  deriving DecidableEq, Repr

/-- What a call returns; the others return it when they have unlocked `rw_mutex`. -/
inductive Result
  | ok
  | ebusy
  | etimedout
  deriving DecidableEq, Repr

/-- Where a thread is: in no call; before `pthread_mutex_lock`; behind a test that has found `attr`
to be -1, of the lock and of `rw_mutex`; behind `pthread_mutex_lock`; in `pthread_cond_wait` before
`rt_sem_take`, in the list of the semaphore, before `pthread_mutex_lock`, behind the test there, and
behind `pthread_mutex_lock`; before `pthread_cond_signal` or `pthread_cond_broadcast`; before
`pthread_mutex_unlock`; and before `pthread_mutex_destroy`. -/
inductive Phase
  | idle
  | entering (op : Op)
  | initializing (op : Op)
  | renewing (op : Op)
  | inside (op : Op)
  | parked (kind : Kind) (timed : Bool)
  | queued (kind : Kind) (timed : Bool)
  | awake (kind : Kind) (timed expired : Bool)
  | rising (kind : Kind) (timed expired : Bool)
  | back (kind : Kind) (timed expired : Bool)
  | notify (kind : Kind)
  | leaving (destroys : Bool) (result : Result)
  | destroying
  deriving DecidableEq, Repr

/-- A thread, and the read locks and write locks that it holds. -/
structure Thread where
  phase : Phase := .idle
  reads : Nat := 0
  writes : Nat := 0
  deriving DecidableEq, Repr

/-- `struct pthread_rwlock` and the threads. `initialized` says that `attr` is not -1, and
`mutexInitialized` that `rw_mutex.attr` is not. -/
structure System where
  initialized : Bool
  mutexInitialized : Bool := true
  owner : Option Nat := none
  cond : Kind → Cond := fun _ => {}
  nwait : Kind → Nat := fun _ => 0
  refcount : Int := 0
  threads : List Thread

inductive Event
  | call (t : Nat) (op : Op)
  | go (t : Nat)
  | timeout (t : Nat)
  deriving DecidableEq, Repr

/-- What becomes of a thread that waits for a semaphore and is given a unit of it. -/
def Thread.wake (kind : Kind) (th : Thread) : Thread :=
  match th.phase with
  | .queued k timed => if k = kind then { th with phase := .awake k timed false } else th
  | _ => th

namespace System

def put (s : System) (t : Nat) (th : Thread) : System :=
  { s with threads := s.threads.set t th }

def signal (s : System) (kind : Kind) : System :=
  let (sem, threads) := (s.cond kind).pthreadCondSignal (Thread.wake kind) s.threads
  { s with cond := Function.update s.cond kind sem, threads }

def broadcast (s : System) (kind : Kind) : System :=
  let (sem, threads) := (s.cond kind).pthreadCondBroadcast (Thread.wake kind) s.threads
  { s with cond := Function.update s.cond kind sem, threads }

/-! ## The mutex -/

/-- `pthread_mutex_lock`, which can go on when the mutex is free, and fails for its owner. Which of
those that wait gets it is left open. -/
def pthreadMutexLock (s : System) (t : Nat) (th : Thread) (renewing locked failed : Phase) :
    Option System :=
  if s.mutexInitialized then
    match s.owner with
    | none => some ({ s with owner := some t }.put t { th with phase := locked })
    | some u => if u = t then some (s.put t { th with phase := failed }) else none
  else some (s.put t { th with phase := renewing })

/-- `pthread_mutex_init`. It sets `attr` first, but no other thread takes a step before its end. -/
def pthreadMutexInit (s : System) : System :=
  { s with mutexInitialized := true, owner := none }

def pthreadMutexUnlock (s : System) (t : Nat) : System :=
  { s with owner := if s.owner = some t then none else s.owner }

/-- `pthread_mutex_destroy` -/
def pthreadMutexDestroy (s : System) : System :=
  if s.mutexInitialized ∧ s.owner = none then { s with mutexInitialized := false } else s

/-! ## The lock -/

/-- `pthread_rwlock_init`, of which the same holds. -/
def pthreadRwlockInit (s : System) : System :=
  { initialized := true, threads := s.threads }

/-- What the loops and the `try` variants test. -/
def blocks (s : System) : Kind → Bool
  | .read => s.refcount < 0 ∨ 0 < s.nwait .write
  | .write => s.refcount ≠ 0

/-- The lock is taken; `rw_refcount` is an `int`. -/
def take (s : System) (t : Nat) (th : Thread) : Kind → System
  | .read => { s with refcount := (s.refcount + 1).bmod (2 ^ 32) }.put t
      { th with phase := .leaving false .ok, reads := th.reads + 1 }
  | .write => { s with refcount := -1 }.put t
      { th with phase := .leaving false .ok, writes := th.writes + 1 }

/-- `pthread_cond_wait` and `pthread_cond_timedwait` up to `rt_sem_take`; the thread owns
`rw_mutex`, as they check. -/
def park (s : System) (t : Nat) (th : Thread) (kind : Kind) (timed : Bool) : System :=
  ({ s with nwait := Function.update s.nwait kind (s.nwait kind + 1) }.pthreadMutexUnlock t).put t
    { th with phase := .parked kind timed }

/-- From the test of the loop on. -/
def lock (s : System) (t : Nat) (th : Thread) (kind : Kind) (wait : Wait) : System :=
  if s.blocks kind then
    match wait with
    | .never => s.put t { th with phase := .leaving false .ebusy }
    | .forever => s.park t th kind false
    | .timed => s.park t th kind true
  else s.take t th kind

/-- Behind `pthread_cond_wait` or `pthread_cond_timedwait`. -/
def relock (s : System) (t : Nat) (th : Thread) (kind : Kind) (timed expired : Bool) : System :=
  let s := { s with nwait := Function.update s.nwait kind (s.nwait kind - 1) }
  if expired then s.put t { th with phase := .leaving false .etimedout }
  else s.lock t th kind (if timed then .timed else .forever)

/-- `rw_refcount` of `pthread_rwlock_unlock`, and the locks of the thread. -/
def release (s : System) (th : Thread) : Int × Thread :=
  if 0 < s.refcount then (s.refcount - 1, { th with reads := th.reads - 1 })
  else if s.refcount = -1 then (0, { th with writes := th.writes - 1 })
  else (s.refcount, th)

def unlock (s : System) (t : Nat) (th : Thread) : System :=
  let (refcount, th) := s.release th
  let phase :=
    if 0 < s.nwait .write then
      if refcount = 0 then .notify .write else .leaving false .ok
    else if 0 < s.nwait .read then .notify .read
    else .leaving false .ok
  { s with refcount }.put t { th with phase }

/-- When the lock is in use it returns at once, and does not unlock `rw_mutex`. Nobody else is at
the semaphores when it tries them. -/
def destroy (s : System) (t : Nat) (th : Thread) : System :=
  if s.refcount ≠ 0 ∨ s.nwait .read ≠ 0 ∨ s.nwait .write ≠ 0 then
    s.put t { th with phase := .idle }
  else if 0 < (s.cond .read).value ∧ 0 < (s.cond .write).value then
    { s with cond := fun _ => {} }.put t { th with phase := .leaving true .ok }
  else s.put t { th with phase := .leaving true .ebusy }

/-- The next step of a thread; `none` if it is in no call, waits for a semaphore, or waits for
`rw_mutex`. -/
def go (s : System) (t : Nat) (th : Thread) : Option System :=
  match th.phase with
  | .idle => none
  | .entering op =>
    if s.initialized then s.pthreadMutexLock t th (.renewing op) (.inside op) .idle
    else if op = .destroy then some (s.put t { th with phase := .idle })
    else some (s.put t { th with phase := .initializing op })
  | .initializing op => some (s.pthreadRwlockInit.put t { th with phase := .entering op })
  | .renewing op => some (s.pthreadMutexInit.put t { th with phase := .entering op })
  | .inside (.lock kind wait) => some (s.lock t th kind wait)
  | .inside .unlock => some (s.unlock t th)
  | .inside .destroy => some (s.destroy t th)
  | .parked kind timed =>
    let sem := s.cond kind
    match sem.semTrytake with
    | some sem =>
      some ({ s with cond := Function.update s.cond kind sem }.put t
        { th with phase := .awake kind timed false })
    | none =>
      some ({ s with
        cond := Function.update s.cond kind { sem with waiters := sem.waiters ++ [t] } }.put t
          { th with phase := .queued kind timed })
  | .queued _ _ => none
  | .awake kind timed expired =>
    s.pthreadMutexLock t th (.rising kind timed expired) (.back kind timed expired)
      (.back kind timed expired)
  | .rising kind timed expired =>
    some (s.pthreadMutexInit.put t { th with phase := .awake kind timed expired })
  | .back kind timed expired => some (s.relock t th kind timed expired)
  | .notify .write =>
    some ((s.signal .write).put t { th with phase := .leaving false .ok })
  | .notify .read =>
    some ((s.broadcast .read).put t { th with phase := .leaving false .ok })
  | .leaving destroys result =>
    some ((s.pthreadMutexUnlock t).put t
      { th with phase := if destroys ∧ result = .ok then .destroying else .idle })
  | .destroying => some (s.pthreadMutexDestroy.put t { th with phase := .idle })

/-- The time of a thread that waits runs out; it may be over as soon as it finds no unit. -/
def expire (s : System) (t : Nat) (th : Thread) : Option System :=
  match th.phase with
  | .parked kind true =>
    if (s.cond kind).value = 0 then some (s.put t { th with phase := .awake kind true true })
    else none
  | .queued kind true =>
    let sem := s.cond kind
    some ({ s with
      cond := Function.update s.cond kind { sem with waiters := sem.waiters.erase t } }.put t
        { th with phase := .awake kind true true })
  | _ => none

/-- A thread that holds nothing does not unlock. -/
def step (s : System) : Event → Option System
  | .call t op =>
    s.threads[t]?.bind fun th =>
      if th.phase = .idle ∧ (op = .unlock → 0 < th.reads + th.writes) then
        some (s.put t { th with phase := .entering op })
      else none
  | .go t => s.threads[t]?.bind (s.go t)
  | .timeout t => s.threads[t]?.bind (s.expire t)

/-- A lock and `n` threads; `initialized` is false for one that `PTHREAD_RWLOCK_INITIALIZER`
makes. -/
def start (initialized : Bool) (n : Nat) : System where
  initialized := initialized
  threads := List.replicate n {}

end System

/-! ## What is asked of the lock -/

namespace Phase

/-- In a call that takes the lock, before it has it or gives up. -/
def locks (kind : Kind) : Phase → Bool
  | .entering (.lock k _) | .initializing (.lock k _) => k == kind
  | .renewing (.lock k _) | .inside (.lock k _) => k == kind
  | .parked k _ | .queued k _ | .awake k _ _ | .rising k _ _ | .back k _ _ => k == kind
  | _ => false

/-- Counted as one that waits. -/
def waits (kind : Kind) : Phase → Bool
  | .parked k _ | .queued k _ | .awake k _ _ | .rising k _ _ | .back k _ _ => k == kind
  | _ => false

def isParked (kind : Kind) : Phase → Bool
  | .parked k _ => k == kind
  | _ => false

def isQueued (kind : Kind) : Phase → Bool
  | .queued k _ => k == kind
  | _ => false

end Phase

/-- How many threads are where `p` says. -/
def tally (threads : List Thread) (p : Phase → Bool) : Nat :=
  threads.countP fun th => p th.phase

def readers (threads : List Thread) : Nat := (threads.map (·.reads)).sum

def writers (threads : List Thread) : Nat := (threads.map (·.writes)).sum

namespace System

/-- No thread can go on within its call. -/
def Quiescent (s : System) : Prop :=
  ∀ t, s.step (.go t) = none

structure Agrees (s : System) : Prop where
  /-- `rw_refcount` is the number of readers, or -1 and there is one writer. -/
  refcount : writers s.threads = 0 ∧ s.refcount = readers s.threads ∨
    s.refcount = -1 ∧ readers s.threads = 0 ∧ writers s.threads = 1
  /-- Nobody keeps `rw_mutex` outside a call. -/
  mutex : ∀ t, s.owner = some t → ∃ th, s.threads[t]? = some th ∧ th.phase ≠ .idle
  /-- A reader is blocked only while a writer holds the lock or waits for it. -/
  reader : s.Quiescent → 0 < tally s.threads (Phase.locks .read) →
    0 < writers s.threads ∨ 0 < tally s.threads (Phase.locks .write)
  /-- A writer is blocked only while somebody holds the lock. -/
  writer : s.Quiescent → 0 < tally s.threads (Phase.locks .write) →
    0 < readers s.threads + writers s.threads

/-! ## The condition -/

/-- No other thread is in a call. -/
def Alone (s : System) (t : Nat) : Prop :=
  ∀ u < s.threads.length, u ≠ t → s.threads[u]?.map (·.phase) = some .idle

/-- The step of a thread does not go wrong. -/
def GoesWell (s : System) (t : Nat) (phase : Phase) : Prop :=
  match phase with
  | .initializing _ => s.initialized = false
  | .renewing _ | .rising _ _ _ => s.mutexInitialized = false
  | .inside (.lock .read _) | .back .read _ false =>
    s.blocks .read = false → s.refcount + 1 < 2 ^ 31
  | .inside .destroy => s.refcount = 0 ∧ s.nwait .read = 0 ∧ s.nwait .write = 0
  | .back .write _ true => s.nwait .write = 1 → 0 ≤ s.refcount →
    tally s.threads (Phase.isQueued .read) = 0 ∧
      tally s.threads (Phase.isParked .read) ≤ (s.cond .read).value
  | .notify .read => tally s.threads (Phase.isParked .read) ≤ max 1 (s.cond .read).value
  | .notify .write =>
    (s.cond .write).value + 1 < 2 ^ 16 ∨ tally s.threads (Phase.isParked .write) = 0
  | .destroying => s.owner = none → s.Alone t
  | _ => True

def Sound (s : System) : Event → Prop
  | .go t => ∀ th ∈ s.threads[t]?, s.GoesWell t th.phase
  | _ => True

end System

/-! ## The invariant -/

@[simp] theorem Kind.read_beq_write : (Kind.read == Kind.write) = false := rfl

@[simp] theorem Kind.write_beq_read : (Kind.write == Kind.read) = false := rfl

namespace Phase

/-- It has `rw_mutex`. -/
def owns : Phase → Bool
  | .inside _ | .back _ _ _ | .notify _ | .leaving _ _ => true
  | _ => false

def unlocks : Phase → Bool
  | .entering .unlock | .initializing .unlock | .renewing .unlock | .inside .unlock => true
  | _ => false

/-- It will take the lock for a writer if it is free, or signal to one. -/
def answers : Phase → Bool
  | .awake .write _ false | .rising .write _ false | .back .write _ false | .notify .write => true
  | _ => false

/-- It will wake the readers. -/
def announces : Phase → Bool
  | .notify .read => true
  | _ => false

/-- It has not got further than the test of `attr`. -/
def starts : Phase → Bool
  | .idle | .entering _ | .initializing _ => true
  | _ => false

end Phase

/-- What the numbers of the lock say of the numbers of threads. Where the lock is free and a writer
is on its way into the list, there is a unit for it or somebody who answers for it; and where
nobody writes or is to, every reader on its way into the list will find a unit. -/
structure Numbers (refcount : Int) (nwait : Kind → Nat) (cond : Kind → Cond)
    (threads : List Thread) : Prop where
  holders : writers threads = 0 ∧ refcount = readers threads ∨
    refcount = -1 ∧ readers threads = 0 ∧ writers threads = 1
  waiting : ∀ kind, nwait kind = tally threads (Phase.waits kind)
  writer : refcount = 0 →
    0 < tally threads (Phase.isParked .write) + tally threads (Phase.isQueued .write) →
    0 < (cond .write).value ∨ 0 < tally threads Phase.answers
  reader : 0 ≤ refcount → nwait .write = 0 → tally threads Phase.announces = 0 →
    tally threads (Phase.isQueued .read) = 0 ∧
      tally threads (Phase.isParked .read) ≤ (cond .read).value

structure System.Inv (s : System) : Prop where
  numbers : Numbers s.refcount s.nwait s.cond s.threads
  owned : Owned s.owner s.threads (·.phase.owns)
  holds : ∀ kind, (s.cond kind).Holds s.threads (·.phase.isQueued kind)
  holding : ∀ th ∈ s.threads, th.phase.unlocks = true → 0 < th.reads + th.writes
  fresh : s.initialized = false → ∀ th ∈ s.threads,
    th.reads = 0 ∧ th.writes = 0 ∧ th.phase.starts = true
  destroyed : s.mutexInitialized = false → s.owner = none

section
variable {threads : List Thread} {t : Nat} {th : Thread} {refcount : Int} {nwait : Kind → Nat}
variable {cond : Kind → Cond}

theorem tally_set (ht : threads[t]? = some th) (th' : Thread) (p : Phase → Bool) :
    tally (threads.set t th') p + (p th.phase).toNat = tally threads p + (p th'.phase).toNat :=
  countP_set ht th' fun th => p th.phase

theorem tally_pos (ht : threads[t]? = some th) {p : Phase → Bool} (hp : p th.phase = true) :
    0 < tally threads p :=
  countP_pos_of_get ht hp

theorem tally_parked_add_queued_le (threads : List Thread) (kind : Kind) :
    tally threads (Phase.isParked kind) + tally threads (Phase.isQueued kind) ≤
      tally threads (Phase.waits kind) :=
  countP_add_le (fun th => by
    cases th.phase <;> simp [Phase.isParked, Phase.isQueued, Phase.waits]) threads

/-- The numbers after a thread has gone on. -/
structure Moved (threads threads' : List Thread) (th th' : Thread) : Prop where
  waits : ∀ kind, tally threads' (Phase.waits kind) + (th.phase.waits kind).toNat =
    tally threads (Phase.waits kind) + (th'.phase.waits kind).toNat
  parked : ∀ kind, tally threads' (Phase.isParked kind) + (th.phase.isParked kind).toNat =
    tally threads (Phase.isParked kind) + (th'.phase.isParked kind).toNat
  queued : ∀ kind, tally threads' (Phase.isQueued kind) + (th.phase.isQueued kind).toNat =
    tally threads (Phase.isQueued kind) + (th'.phase.isQueued kind).toNat
  answers : tally threads' Phase.answers + th.phase.answers.toNat =
    tally threads Phase.answers + th'.phase.answers.toNat
  announces : tally threads' Phase.announces + th.phase.announces.toNat =
    tally threads Phase.announces + th'.phase.announces.toNat
  readers : readers threads' + th.reads = readers threads + th'.reads
  writers : writers threads' + th.writes = writers threads + th'.writes

theorem moved (ht : threads[t]? = some th) (th' : Thread) :
    Moved threads (threads.set t th') th th' :=
  ⟨fun _ => tally_set ht th' _, fun _ => tally_set ht th' _, fun _ => tally_set ht th' _,
    tally_set ht th' _, tally_set ht th' _, sum_set ht th' _, sum_set ht th' _⟩

/-- Where a thread is makes no difference to the numbers. -/
def Phase.Alike (p q : Phase) : Prop :=
  (∀ kind, q.waits kind = p.waits kind ∧ q.isParked kind = p.isParked kind ∧
    q.isQueued kind = p.isQueued kind) ∧ q.answers = p.answers ∧ q.announces = p.announces

theorem Numbers.alike (h : Numbers refcount nwait cond threads) (ht : threads[t]? = some th)
    {phase : Phase} (halike : th.phase.Alike phase) :
    Numbers refcount nwait cond (threads.set t { th with phase }) := by
  obtain ⟨hkind, hanswers, hannounces⟩ := halike
  have hmoved := moved ht { th with phase }
  have hwaits := hmoved.waits
  have hparked := hmoved.parked
  have hqueued := hmoved.queued
  have h3 := hmoved.answers
  have h4 := hmoved.announces
  simp only [fun kind => (hkind kind).1, fun kind => (hkind kind).2.1,
    fun kind => (hkind kind).2.2, hanswers, hannounces, Nat.add_right_cancel_iff]
    at hwaits hparked hqueued h3 h4
  have hreaders := Nat.add_right_cancel hmoved.readers
  have hwriters := Nat.add_right_cancel hmoved.writers
  refine ⟨?_, ?_, ?_, ?_⟩
  · rw [hreaders, hwriters]
    exact h.holders
  · intro kind
    rw [hwaits]
    exact h.waiting kind
  · rw [hparked, hqueued, h3]
    exact h.writer
  · rw [hparked, hqueued, h4]
    exact h.reader

end

namespace System
variable {s : System} {t : Nat} {th : Thread} {kind : Kind} {timed : Bool}
variable {nwait : Kind → Nat} {refcount : Int}

/-! ## Steps that leave the numbers alone -/

theorem Inv.alike (h : s.Inv) (ht : s.threads[t]? = some th) {phase : Phase} {owner : Option Nat}
    (halike : th.phase.Alike phase)
    (howned : Owned owner (s.threads.set t { th with phase }) (·.phase.owns))
    (hholding : phase.unlocks = true → 0 < th.reads + th.writes)
    (hfresh : s.initialized = false → phase.starts = true)
    (hdestroyed : s.mutexInitialized = false → owner = none) :
    Inv ({ s with owner }.put t { th with phase }) where
  numbers := h.numbers.alike ht halike
  owned := howned
  holds := fun kind => (h.holds kind).same ht (halike.1 kind).2.2
  holding := forall_mem_set h.holding hholding
  fresh := fun hinit => by
    have hall := h.fresh hinit
    obtain ⟨hreads, hwrites, -⟩ := hall th (List.mem_of_getElem? ht)
    exact forall_mem_set hall ⟨hreads, hwrites, hfresh hinit⟩
  destroyed := hdestroyed

/-- A thread goes on, and the mutex stays where it is. -/
theorem Inv.elsewhere (h : s.Inv) (ht : s.threads[t]? = some th) {p q : Phase}
    (hphase : th.phase = p) (halike : p.Alike q) (howns : q.owns = p.owns)
    (hunlocks : q.unlocks = true → p.unlocks = true)
    (hstarts : p.starts = true → q.starts = true) : Inv (s.put t { th with phase := q }) := by
  subst hphase
  have hmem := List.mem_of_getElem? ht
  exact h.alike ht halike (h.owned.same ht howns) (fun hun => h.holding th hmem (hunlocks hun))
    (fun hinit => hstarts (h.fresh hinit th hmem).2.2) h.destroyed

theorem Inv.mutexLock (h : s.Inv) (ht : s.threads[t]? = some th)
    {p renewing locked failed : Phase} (hphase : th.phase = p) {s' : System}
    (hstep : s.pthreadMutexLock t th renewing locked failed = some s') (hnot : p.owns = false)
    (hlocked : p.Alike locked) (hrenewing : p.Alike renewing) (howns : locked.owns = true)
    (hnot' : renewing.owns = false) (hunlocks : locked.unlocks = true → p.unlocks = true)
    (hunlocks' : renewing.unlocks = true → p.unlocks = true)
    (hinit : s.initialized = true ∨ p.starts = false) : s'.Inv := by
  subst hphase
  have hmem := List.mem_of_getElem? ht
  have hnever : ∀ {b : Bool}, s.initialized = false → b = true := by
    intro b hnot
    have hstart := (h.fresh hnot th hmem).2.2
    rcases hinit with hinit | hstarts
    · cases hinit.symm.trans hnot
    · cases hstarts.symm.trans hstart
  unfold pthreadMutexLock at hstep
  split at hstep
  · rename_i hmutex
    cases howner : s.owner with
    | none =>
      rw [howner] at hstep
      obtain rfl := Option.some.inj hstep
      have howned := h.owned
      rw [howner] at howned
      exact h.alike ht hlocked (howned.take ht howns)
        (fun hun => h.holding th hmem (hunlocks hun)) hnever
        fun hnot => by cases hmutex.symm.trans hnot
    | some u =>
      rw [howner] at hstep
      by_cases hu : u = t
      · subst hu
        obtain ⟨a, ha, hown⟩ := (h.owned u).mp howner
        rw [ht] at ha
        obtain rfl := Option.some.inj ha
        cases hnot.symm.trans hown
      · dsimp only at hstep
        rw [if_neg hu] at hstep
        cases hstep
  · obtain rfl := Option.some.inj hstep
    exact h.alike ht hrenewing (h.owned.same ht (hnot'.trans hnot.symm))
      (fun hun => h.holding th hmem (hunlocks' hun)) hnever h.destroyed

/-- `pthread_mutex_init` where nobody has done it in the meantime. -/
theorem Inv.mutexInit (h : s.Inv) (hmutex : s.mutexInitialized = false) :
    s.pthreadMutexInit.Inv := by
  have howned := h.owned
  rw [h.destroyed hmutex] at howned
  exact ⟨h.numbers, howned, h.holds, h.holding, h.fresh, fun hnot => by cases hnot⟩

theorem tally_of_starts {threads : List Thread} (h : ∀ th ∈ threads, th.phase.starts = true)
    (p : Phase → Bool) (hidle : p .idle = false) (hentering : ∀ op, p (.entering op) = false)
    (hinitializing : ∀ op, p (.initializing op) = false) :
    tally threads p = 0 := by
  refine List.countP_eq_zero.mpr fun th hmem => ?_
  have hstarts := h th hmem
  cases hphase : th.phase with
  | idle => simp [hidle]
  | entering op => simp [hentering]
  | initializing op => simp [hinitializing]
  | _ =>
    rw [hphase] at hstarts
    cases hstarts

theorem sum_of_forall {threads : List Thread} {f : Thread → Nat} (h : ∀ th ∈ threads, f th = 0) :
    (threads.map f).sum = 0 := by
  rw [List.map_congr_left h]
  simp

/-- A lock that is new, and threads none of which has got far. -/
theorem inv_of_fresh {threads : List Thread} {initialized : Bool}
    (hfresh : ∀ th ∈ threads, th.reads = 0 ∧ th.writes = 0 ∧ th.phase.starts = true)
    (hholding : ∀ th ∈ threads, th.phase.unlocks = true → 0 < th.reads + th.writes) :
    Inv { initialized, threads } := by
  have hnone := tally_of_starts fun th hmem => (hfresh th hmem).2.2
  have hparked (kind) := hnone (Phase.isParked kind) rfl (fun _ => rfl) fun _ => rfl
  have hqueued (kind) := hnone (Phase.isQueued kind) rfl (fun _ => rfl) fun _ => rfl
  have hreaders : readers threads = 0 := sum_of_forall fun th hmem => (hfresh th hmem).1
  have hwriters : writers threads = 0 := sum_of_forall fun th hmem => (hfresh th hmem).2.1
  refine ⟨⟨.inl ⟨hwriters, ?_⟩, fun kind => ?_, fun _ hpos => ?_, fun _ _ _ => ?_⟩, fun u => ?_,
    fun kind => Cond.holds_nil (hqueued kind), hholding, fun _ => hfresh, fun _ => rfl⟩
  · change (0 : Int) = readers threads
    rw [hreaders]
    rfl
  · exact (hnone (Phase.waits kind) rfl (fun _ => rfl) fun _ => rfl).symm
  · dsimp only at hpos
    rw [hparked, hqueued] at hpos
    cases hpos
  · exact ⟨hqueued .read, Nat.le_of_eq (hparked .read)⟩
  · refine ⟨fun hu => (by cases hu), ?_⟩
    rintro ⟨a, ha, hown⟩
    have hpos := countP_pos_of_get (p := fun th : Thread => th.phase.owns) ha hown
    have hzero := hnone Phase.owns rfl (fun _ => rfl) fun _ => rfl
    exact absurd hzero (Nat.pos_iff_ne_zero.mp hpos)

/-- `pthread_rwlock_init` where nobody has done it in the meantime. -/
theorem Inv.init (h : s.Inv) (hinit : s.initialized = false) : s.pthreadRwlockInit.Inv :=
  inv_of_fresh (h.fresh hinit) h.holding

/-! ## Taking the lock -/

theorem blocks_read_eq_false (h : s.blocks .read = false) :
    0 ≤ s.refcount ∧ s.nwait .write = 0 := by
  simpa [blocks] using h

/-- What is left of the invariant where a thread that has the mutex goes on with other numbers. -/
theorem Inv.within (h : s.Inv) (ht : s.threads[t]? = some th) {th' : Thread} {owner : Option Nat}
    (hnumbers : Numbers refcount nwait s.cond (s.threads.set t th'))
    (howned : Owned owner (s.threads.set t th') (·.phase.owns))
    (hqueued : ∀ kind, th'.phase.isQueued kind = th.phase.isQueued kind)
    (hunlocks : th'.phase.unlocks = false) (hstarts : th.phase.starts = false)
    (hdestroyed : s.mutexInitialized = false → owner = none) :
    Inv ({ s with refcount, nwait, owner }.put t th') where
  numbers := hnumbers
  owned := howned
  holds := fun kind => (h.holds kind).same ht (hqueued kind)
  holding := forall_mem_set h.holding fun hun => by cases hunlocks.symm.trans hun
  fresh := fun hinit => by
    have hstart := (h.fresh hinit th (List.mem_of_getElem? ht)).2.2
    cases hstarts.symm.trans hstart
  destroyed := hdestroyed

/-- A thread at the test of its loop, which is not counted in `nwait`. -/
structure AtTest (s : System) (th : Thread) (kind : Kind) (nwait : Kind → Nat) : Prop where
  owns : th.phase.owns = true
  starts : th.phase.starts = false
  parked : ∀ k, th.phase.isParked k = false
  queued : ∀ k, th.phase.isQueued k = false
  announces : th.phase.announces = false
  answers : kind = .read → th.phase.answers = false
  other : kind = .read → th.phase.waits .write = false
  left : ∀ k, nwait k + (th.phase.waits k).toNat = s.nwait k

theorem atTest_inside {wait : Wait} (hphase : th.phase = .inside (.lock kind wait)) :
    s.AtTest th kind s.nwait := by
  constructor <;> simp [hphase, Phase.owns, Phase.starts, Phase.isParked, Phase.isQueued,
    Phase.announces, Phase.answers, Phase.waits]

theorem Inv.atTest_back (h : s.Inv) (ht : s.threads[t]? = some th) {expired : Bool}
    (hphase : th.phase = .back kind timed expired) :
    s.AtTest th kind (Function.update s.nwait kind (s.nwait kind - 1)) where
  owns := by rw [hphase]; rfl
  starts := by rw [hphase]; rfl
  parked := fun _ => by rw [hphase]; rfl
  queued := fun _ => by rw [hphase]; rfl
  announces := by rw [hphase]; rfl
  answers := fun hkind => by rw [hphase, hkind]; rfl
  other := fun hkind => by rw [hphase, hkind]; rfl
  left := fun k => by
    by_cases hk : k = kind
    · subst hk
      have hpos := tally_pos (p := Phase.waits k) ht (by simp [hphase, Phase.waits])
      rw [← h.numbers.waiting] at hpos
      simp only [Function.update_self, hphase, Phase.waits, beq_self_eq_true, Bool.toNat_true]
      omega
    · simp [hphase, Phase.waits, Function.update_of_ne hk, Ne.symm hk]

/-- The numbers after such a thread has gone on. -/
structure Leaves (s : System) (nwait : Kind → Nat) (threads : List Thread) (th th' : Thread) :
    Prop where
  waits : ∀ k, tally threads (Phase.waits k) = nwait k + (th'.phase.waits k).toNat
  parked : ∀ k, tally threads (Phase.isParked k) =
    tally s.threads (Phase.isParked k) + (th'.phase.isParked k).toNat
  queued : ∀ k, tally threads (Phase.isQueued k) =
    tally s.threads (Phase.isQueued k) + (th'.phase.isQueued k).toNat
  announces : tally threads Phase.announces =
    tally s.threads Phase.announces + th'.phase.announces.toNat
  answers : tally threads Phase.answers + th.phase.answers.toNat =
    tally s.threads Phase.answers + th'.phase.answers.toNat
  readers : readers threads + th.reads = readers s.threads + th'.reads
  writers : writers threads + th.writes = writers s.threads + th'.writes

theorem AtTest.leaves (hat : s.AtTest th kind nwait) (h : s.Inv) (ht : s.threads[t]? = some th)
    (th' : Thread) : s.Leaves nwait (s.threads.set t th') th th' := by
  have hmoved := moved ht th'
  refine ⟨fun k => ?_, fun k => ?_, fun k => ?_, ?_, hmoved.answers, hmoved.readers,
    hmoved.writers⟩
  · have hwaits := hmoved.waits k
    have hleft := hat.left k
    rw [h.numbers.waiting] at hleft
    omega
  · rw [← hmoved.parked k, hat.parked]
    rfl
  · rw [← hmoved.queued k, hat.queued]
    rfl
  · rw [← hmoved.announces, hat.announces]
    rfl

/-- Nobody writes or is to, once the thread is not counted. -/
theorem AtTest.reader (hat : s.AtTest th .read nwait) (h : s.Inv) (hcount : 0 ≤ s.refcount)
    (hwriters : nwait .write = 0) (hnone : tally s.threads Phase.announces = 0) :
    tally s.threads (Phase.isQueued .read) = 0 ∧
      tally s.threads (Phase.isParked .read) ≤ (s.cond .read).value := by
  refine h.numbers.reader hcount ?_ hnone
  rw [← hat.left .write, hat.other rfl, hwriters]
  rfl

theorem Inv.take (h : s.Inv) (ht : s.threads[t]? = some th) (hat : s.AtTest th kind nwait)
    (hfree : { s with nwait }.blocks kind = false)
    (hfits : kind = .read → s.refcount + 1 < 2 ^ 31) : ({ s with nwait }.take t th kind).Inv := by
  have hholders := h.numbers.holders
  cases kind with
  | read =>
    obtain ⟨hcount, hwriters⟩ : 0 ≤ s.refcount ∧ nwait .write = 0 := blocks_read_eq_false hfree
    have hlt := hfits rfl
    have hmod : (s.refcount + 1).bmod (2 ^ 32) = s.refcount + 1 :=
      Int.bmod_eq_of_le_mul_two (by omega) (by omega)
    have hleaves := hat.leaves h ht { th with phase := .leaving false .ok, reads := th.reads + 1 }
    have hnumbers : Numbers ((s.refcount + 1).bmod (2 ^ 32)) nwait s.cond (s.threads.set t
        { th with phase := .leaving false .ok, reads := th.reads + 1 }) := by
      rw [hmod]
      refine ⟨?_, fun k => (hleaves.waits k).symm, fun hzero => ?_, fun _ _ hnone => ?_⟩
      · have hreads := hleaves.readers
        have hwrites := hleaves.writers
        simp only at hreads hwrites
        omega
      · omega
      · rw [hleaves.parked, hleaves.queued]
        exact hat.reader h hcount hwriters (hleaves.announces.symm.trans hnone)
    exact h.within ht hnumbers (h.owned.same ht hat.owns.symm) (fun k => (hat.queued k).symm) rfl
      hat.starts h.destroyed
  | write =>
    have hzero : s.refcount = 0 := by simpa [blocks] using hfree
    have hleaves := hat.leaves h ht { th with phase := .leaving false .ok, writes := th.writes + 1 }
    have hnumbers : Numbers (-1) nwait s.cond (s.threads.set t
        { th with phase := .leaving false .ok, writes := th.writes + 1 }) := by
      refine ⟨?_, fun k => (hleaves.waits k).symm, fun hminus => ?_, fun hpos => ?_⟩
      · have hreads := hleaves.readers
        have hwrites := hleaves.writers
        simp only at hreads hwrites
        omega
      · omega
      · omega
    exact h.within ht hnumbers (h.owned.same ht hat.owns.symm) (fun k => (hat.queued k).symm) rfl
      hat.starts h.destroyed

/-- It has to wait, and gives the mutex back. -/
theorem Inv.park (h : s.Inv) (ht : s.threads[t]? = some th) (hat : s.AtTest th kind nwait)
    (hblocks : { s with nwait }.blocks kind = true) (timed : Bool) :
    ({ s with nwait }.park t th kind timed).Inv := by
  have hleaves := hat.leaves h ht { th with phase := .parked kind timed }
  have howner := h.owned.eq_some ht hat.owns
  have howned := h.owned
  rw [howner] at howned
  have hnumbers : Numbers s.refcount (Function.update nwait kind (nwait kind + 1)) s.cond
      (s.threads.set t { th with phase := .parked kind timed }) := by
    refine ⟨?_, fun k => ?_, fun hzero hpos => ?_, fun hcount hnone hann => ?_⟩
    · have hreads := Nat.add_right_cancel hleaves.readers
      have hwrites := Nat.add_right_cancel hleaves.writers
      rw [hreads, hwrites]
      exact h.numbers.holders
    · rw [hleaves.waits k]
      by_cases hk : k = kind
      · subst hk
        simp [Phase.waits]
      · simp [Phase.waits, Function.update_of_ne hk, Ne.symm hk]
    · cases kind with
      | read =>
        have hanswers := hleaves.answers
        rw [hat.answers rfl] at hanswers
        rw [hleaves.parked, hleaves.queued] at hpos
        rw [show tally _ Phase.answers = _ from hanswers]
        exact h.numbers.writer hzero hpos
      | write => simp [blocks, hzero] at hblocks
    · cases kind with
      | read =>
        rw [Function.update_of_ne (by decide)] at hnone
        have hneg : s.refcount < 0 := by simpa [blocks, hnone] using hblocks
        omega
      | write => simp at hnone
  have hinv := h.within ht hnumbers (howned.give ht rfl) (fun k => (hat.queued k).symm) rfl
    hat.starts fun _ => rfl
  unfold System.park pthreadMutexUnlock
  simp only [howner, if_true]
  exact hinv

/-- It gives up. -/
theorem Inv.leave (h : s.Inv) (ht : s.threads[t]? = some th) (hat : s.AtTest th kind nwait)
    (hanswers : th.phase.answers = false) (hgoes : kind = .write →
      nwait .write = 0 → 0 ≤ s.refcount → tally s.threads Phase.announces = 0 →
        tally s.threads (Phase.isQueued .read) = 0 ∧
          tally s.threads (Phase.isParked .read) ≤ (s.cond .read).value) (destroys : Bool)
    (result : Result) :
    ({ s with nwait }.put t { th with phase := .leaving destroys result }).Inv := by
  have hleaves := hat.leaves h ht { th with phase := .leaving destroys result }
  have hnumbers : Numbers s.refcount nwait s.cond
      (s.threads.set t { th with phase := .leaving destroys result }) := by
    refine ⟨?_, fun k => (hleaves.waits k).symm, ?_, fun hcount hnone hann => ?_⟩
    · have hreads := Nat.add_right_cancel hleaves.readers
      have hwrites := Nat.add_right_cancel hleaves.writers
      rw [hreads, hwrites]
      exact h.numbers.holders
    · have hanswer := hleaves.answers
      rw [hanswers] at hanswer
      rw [hleaves.parked, hleaves.queued, show tally _ Phase.answers = _ from hanswer]
      exact h.numbers.writer
    · rw [hleaves.parked, hleaves.queued]
      have hnotify := hleaves.announces.symm.trans hann
      cases kind with
      | read => exact hat.reader h hcount hnone hnotify
      | write => exact hgoes rfl hnone hcount hnotify
  exact h.within ht hnumbers (h.owned.same ht hat.owns.symm) (fun k => (hat.queued k).symm) rfl
    hat.starts h.destroyed

theorem Inv.lock (h : s.Inv) (ht : s.threads[t]? = some th) (hat : s.AtTest th kind nwait)
    (hfits : kind = .read → { s with nwait }.blocks .read = false → s.refcount + 1 < 2 ^ 31)
    {wait : Wait} (hnever : wait = .never → nwait = s.nwait ∧ th.phase.answers = false) :
    ({ s with nwait }.lock t th kind wait).Inv := by
  unfold System.lock
  split
  · rename_i hblocks
    cases wait with
    | never =>
      obtain ⟨rfl, hanswers⟩ := hnever rfl
      exact h.leave ht hat hanswers (fun _ hnone hcount => h.numbers.reader hcount hnone) false
        .ebusy
    | forever => exact h.park ht hat hblocks false
    | timed => exact h.park ht hat hblocks true
  · rename_i hfree
    have hfree := Bool.eq_false_iff.mpr hfree
    exact h.take ht hat hfree fun hkind => hfits hkind (hkind ▸ hfree)

/-- Behind the wait: a writer that gives up as the last one leaves no reader behind. -/
theorem Inv.relock (h : s.Inv) (ht : s.threads[t]? = some th) {expired : Bool}
    (hphase : th.phase = .back kind timed expired) (hgoes : s.GoesWell t th.phase) :
    (s.relock t th kind timed expired).Inv := by
  have hat := h.atTest_back ht hphase
  unfold System.relock
  dsimp only
  split
  · rename_i hexpired
    subst hexpired
    refine h.leave ht hat (by rw [hphase]; cases kind <;> rfl) (fun hkind hnone hcount _ => ?_) _ _
    subst hkind
    rw [hphase] at hgoes
    refine hgoes ?_ hcount
    have hpos := tally_pos (p := Phase.waits .write) ht (by rw [hphase]; rfl)
    rw [← h.numbers.waiting] at hpos
    rw [Function.update_self] at hnone
    omega
  · rename_i hexpired
    obtain rfl := Bool.eq_false_iff.mpr hexpired
    refine h.lock ht hat (fun hkind hfree => ?_) fun hnever => ?_
    · subst hkind
      rw [hphase] at hgoes
      exact hgoes (by simpa [blocks] using hfree)
    · cases timed <;> cases hnever

/-! ## Giving it back -/

theorem Inv.unlock (h : s.Inv) (ht : s.threads[t]? = some th)
    (hphase : th.phase = .inside .unlock) : (s.unlock t th).Inv := by
  have hat : s.AtTest th .read s.nwait := by
    constructor <;> simp [hphase, Phase.owns, Phase.starts, Phase.isParked, Phase.isQueued,
      Phase.announces, Phase.answers, Phase.waits]
  have hanswers : th.phase.answers = false := hat.answers rfl
  have hholding := h.holding th (List.mem_of_getElem? ht) (by rw [hphase]; rfl)
  have hholders := h.numbers.holders
  have hparked := tally_parked_add_queued_le s.threads
  have hwaiting := h.numbers.waiting
  unfold System.unlock
  obtain ⟨refcount, th', hrelease, hcount⟩ : ∃ (refcount : Int) (th' : Thread),
      s.release th = (refcount, th') ∧
        ∀ r w : Nat, r + th.reads = readers s.threads + th'.reads →
          w + th.writes = writers s.threads + th'.writes →
          w = 0 ∧ refcount = r ∨ refcount = -1 ∧ r = 0 ∧ w = 1 := by
    have hsum := moved ht {}
    have hreads := hsum.readers
    have hwrites := hsum.writers
    simp only at hreads hwrites
    unfold System.release
    split
    · exact ⟨_, _, rfl, fun r w hr hw => by simp only at hr hw; omega⟩
    · split
      · exact ⟨_, _, rfl, fun r w hr hw => by simp only at hr hw; omega⟩
      · exact ⟨_, _, rfl, fun r w hr hw => by omega⟩
  rw [hrelease]
  dsimp only
  generalize hnext : (if 0 < s.nwait .write then
    if refcount = 0 then Phase.notify .write else Phase.leaving false .ok
    else if 0 < s.nwait .read then Phase.notify .read else Phase.leaving false .ok) = phase
  have howns : phase.owns = true := by
    rw [← hnext]
    split <;> split <;> rfl
  have hunlocks : phase.unlocks = false := by
    rw [← hnext]
    split <;> split <;> rfl
  have hplace : ∀ k, phase.waits k = false ∧ phase.isParked k = false ∧
      phase.isQueued k = false := by
    intro k
    rw [← hnext]
    split <;> split <;> exact ⟨rfl, rfl, rfl⟩
  have hleaves := hat.leaves h ht { th' with phase }
  have hnumbers : Numbers refcount s.nwait s.cond (s.threads.set t { th' with phase }) := by
    refine ⟨hcount _ _ hleaves.readers hleaves.writers, fun k => ?_, fun hzero hpos => ?_,
      fun _ hnone hann => ?_⟩
    · rw [hleaves.waits, (hplace k).1]
      rfl
    · have hpos' : 0 < s.nwait .write := by
        rw [hleaves.parked, hleaves.queued, (hplace .write).2.1, (hplace .write).2.2] at hpos
        have hle := hparked .write
        rw [hwaiting]
        simp only [Bool.toNat_false] at hpos
        omega
      rw [if_pos hpos', if_pos hzero] at hnext
      subst hnext
      have hanswer := hleaves.answers
      rw [hanswers] at hanswer
      simp only [Phase.answers, Bool.toNat_false, Bool.toNat_true] at hanswer
      exact .inr (by omega)
    · rw [if_neg (by omega)] at hnext
      have hread : s.nwait .read = 0 := by
        by_contra hne
        rw [if_pos (Nat.pos_of_ne_zero hne)] at hnext
        subst hnext
        rw [hleaves.announces] at hann
        simp [Phase.announces] at hann
      have hle := hparked .read
      rw [hwaiting] at hread
      rw [hleaves.parked, hleaves.queued, (hplace .read).2.1, (hplace .read).2.2]
      simp only [Bool.toNat_false]
      omega
  exact h.within ht hnumbers (h.owned.same ht (howns.trans hat.owns.symm))
    (fun k => (hplace k).2.2.trans (hat.queued k).symm) hunlocks hat.starts h.destroyed

/-! ## The semaphores -/

/-- What is left of the invariant where a semaphore and one thread change. -/
theorem Inv.atSem (h : s.Inv) {threads : List Thread} {sem : Cond} {th' : Thread}
    (ht : s.threads[t]? = some th) (hthreads : threads = s.threads.set t th')
    (hnumbers : Numbers s.refcount s.nwait (Function.update s.cond kind sem) threads)
    (hholds : sem.Holds threads (·.phase.isQueued kind))
    (hother : ∀ k ≠ kind, th'.phase.isQueued k = th.phase.isQueued k)
    (howns : th'.phase.owns = th.phase.owns)
    (hunlocks : th'.phase.unlocks = false) (hstarts : th.phase.starts = false) :
    Inv { s with cond := Function.update s.cond kind sem, threads } where
  numbers := hnumbers
  owned := hthreads ▸ h.owned.same ht howns
  holds := fun k => by
    by_cases hk : k = kind
    · subst hk
      dsimp only
      rw [Function.update_self]
      exact hholds
    · dsimp only
      rw [Function.update_of_ne hk, hthreads]
      exact (h.holds k).same ht (hother k hk)
  holding := hthreads ▸ forall_mem_set h.holding fun hun => by cases hunlocks.symm.trans hun
  fresh := fun hinit => by
    have hstart := (h.fresh hinit th (List.mem_of_getElem? ht)).2.2
    cases hstarts.symm.trans hstart
  destroyed := h.destroyed

/-- The numbers where a thread goes on within its wait. -/
theorem Inv.waitingOn (h : s.Inv)
    (ht : s.threads[t]? = some th) {phase : Phase} {cond : Kind → Cond}
    (hwaits : ∀ k, phase.waits k = th.phase.waits k)
    (hannounces : phase.announces = th.phase.announces)
    (hwriter : Moved s.threads (s.threads.set t { th with phase }) th { th with phase } →
      s.refcount = 0 →
      0 < tally (s.threads.set t { th with phase }) (Phase.isParked .write) +
        tally (s.threads.set t { th with phase }) (Phase.isQueued .write) →
      0 < (cond .write).value ∨ 0 < tally (s.threads.set t { th with phase }) Phase.answers)
    (hreader : Moved s.threads (s.threads.set t { th with phase }) th { th with phase } →
      tally s.threads (Phase.isQueued .read) = 0 ∧
        tally s.threads (Phase.isParked .read) ≤ (s.cond .read).value →
      tally (s.threads.set t { th with phase }) (Phase.isQueued .read) = 0 ∧
        tally (s.threads.set t { th with phase }) (Phase.isParked .read) ≤ (cond .read).value) :
    Numbers s.refcount s.nwait cond (s.threads.set t { th with phase }) := by
  have hmoved := moved ht { th with phase }
  refine ⟨?_, fun k => ?_, hwriter hmoved, fun hcount hnone hann => ?_⟩
  · rw [Nat.add_right_cancel hmoved.readers, Nat.add_right_cancel hmoved.writers]
    exact h.numbers.holders
  · have hk := hmoved.waits k
    rw [hwaits k] at hk
    rw [Nat.add_right_cancel hk]
    exact h.numbers.waiting k
  · have hsame := hmoved.announces
    rw [hannounces] at hsame
    have hann := (Nat.add_right_cancel hsame).symm.trans hann
    exact hreader hmoved (h.numbers.reader hcount hnone hann)

/-- `rt_sem_take` where there is a unit. -/
theorem Inv.semTake (h : s.Inv) (ht : s.threads[t]? = some th)
    (hphase : th.phase = .parked kind timed) (hvalue : 0 < (s.cond kind).value) :
    Inv ({ s with
      cond := Function.update s.cond kind { s.cond kind with value := (s.cond kind).value - 1 }
      }.put t { th with phase := .awake kind timed false }) := by
  refine h.atSem ht rfl (h.waitingOn ht ?_ ?_ ?_ ?_)
    ((h.holds kind).take.same ht (by simp [hphase, Phase.isQueued])) ?_ ?_ rfl ?_
  · simp [hphase, Phase.waits]
  · simp [hphase, Phase.announces]
  · intro hmoved hzero hpos
    have hparked := hmoved.parked .write
    have hqueued := hmoved.queued .write
    have hanswers := hmoved.answers
    have hwriter := h.numbers.writer hzero
    cases kind <;>
      simp [hphase, Phase.isParked, Phase.isQueued, Phase.answers] at hparked hqueued hanswers
    · rw [Function.update_of_ne (by decide)]
      omega
    · exact .inr (by omega)
  · intro hmoved hall
    have hparked := hmoved.parked .read
    have hqueued := hmoved.queued .read
    cases kind <;> simp [hphase, Phase.isParked, Phase.isQueued] at hparked hqueued
    · rw [Function.update_self]
      exact ⟨by omega, by simp only; omega⟩
    · rw [Function.update_of_ne (by decide)]
      omega
  · intro k hk
    simp [hphase, Phase.isQueued]
  · simp [hphase, Phase.owns]
  · simp [hphase, Phase.starts]

/-- `rt_sem_take` where there is none. -/
theorem Inv.semJoin (h : s.Inv) (ht : s.threads[t]? = some th)
    (hphase : th.phase = .parked kind timed) (hvalue : (s.cond kind).value = 0) :
    Inv ({ s with
      cond := Function.update s.cond kind
        { s.cond kind with waiters := (s.cond kind).waiters ++ [t] }
      }.put t { th with phase := .queued kind timed }) := by
  refine h.atSem ht rfl (h.waitingOn ht ?_ ?_ ?_ ?_)
    ((h.holds kind).join hvalue ht (by simp [hphase, Phase.isQueued]) (by simp [Phase.isQueued]))
    ?_ ?_ rfl ?_
  · simp [hphase, Phase.waits]
  · simp [hphase, Phase.announces]
  · intro hmoved hzero hpos
    have hparked := hmoved.parked .write
    have hqueued := hmoved.queued .write
    have hanswers := hmoved.answers
    have hwriter := h.numbers.writer hzero
    cases kind <;>
      simp [hphase, Phase.isParked, Phase.isQueued, Phase.answers] at hparked hqueued hanswers
    · rw [Function.update_of_ne (by decide)]
      omega
    · rw [Function.update_self]
      simp only
      omega
  · intro hmoved hall
    have hparked := hmoved.parked .read
    have hqueued := hmoved.queued .read
    cases kind <;> simp [hphase, Phase.isParked, Phase.isQueued] at hparked hqueued
    · omega
    · rw [Function.update_of_ne (by decide)]
      omega
  · intro k hk
    simp [hphase, Phase.isQueued, Ne.symm hk]
  · simp [hphase, Phase.owns]
  · simp [hphase, Phase.starts]

theorem Inv.expire (h : s.Inv) (ht : s.threads[t]? = some th) {s' : System}
    (hstep : s.expire t th = some s') : s'.Inv := by
  unfold System.expire at hstep
  split at hstep
  · rename_i kind hphase
    split at hstep
    · rename_i hvalue
      obtain rfl := Option.some.inj hstep
      have hnumbers : Numbers s.refcount s.nwait s.cond
          (s.threads.set t { th with phase := .awake kind true true }) := by
        refine h.waitingOn ht (by simp [hphase, Phase.waits])
          (by simp [hphase, Phase.announces]) (fun hmoved hzero hpos => ?_) fun hmoved hall => ?_
        · have hparked := hmoved.parked .write
          have hqueued := hmoved.queued .write
          have hanswers := hmoved.answers
          have hwriter := h.numbers.writer hzero
          cases kind <;>
            simp [hphase, Phase.isParked, Phase.isQueued, Phase.answers]
              at hparked hqueued hanswers <;> omega
        · have hparked := hmoved.parked .read
          have hqueued := hmoved.queued .read
          cases kind <;> simp [hphase, Phase.isParked, Phase.isQueued] at hparked hqueued <;>
            omega
      exact h.within ht hnumbers (h.owned.same ht (by simp [hphase, Phase.owns]))
        (fun k => by simp [hphase, Phase.isQueued]) rfl (by simp [hphase, Phase.starts]) h.destroyed
    · cases hstep
  · rename_i kind hphase
    obtain rfl := Option.some.inj hstep
    refine h.atSem ht rfl (h.waitingOn ht ?_ ?_ ?_ ?_)
      ((h.holds kind).leave ht (by simp [Phase.isQueued])) ?_ ?_ rfl ?_
    · simp [hphase, Phase.waits]
    · simp [hphase, Phase.announces]
    · intro hmoved hzero hpos
      have hparked := hmoved.parked .write
      have hqueued := hmoved.queued .write
      have hanswers := hmoved.answers
      have hwriter := h.numbers.writer hzero
      cases kind <;>
        simp [hphase, Phase.isParked, Phase.isQueued, Phase.answers] at hparked hqueued hanswers
      · rw [Function.update_of_ne (by decide)]
        omega
      · rw [Function.update_self]
        simp only
        omega
    · intro hmoved hall
      have hparked := hmoved.parked .read
      have hqueued := hmoved.queued .read
      cases kind <;> simp [hphase, Phase.isParked, Phase.isQueued] at hparked hqueued
      · omega
      · rw [Function.update_of_ne (by decide)]
        omega
    · intro k hk
      simp [hphase, Phase.isQueued, Ne.symm hk]
    · simp [hphase, Phase.owns]
    · simp [hphase, Phase.starts]
  · cases hstep

/-! ## Waking those that wait -/

theorem wake_queued {k : Kind} (hphase : th.phase = .queued k timed) :
    Thread.wake k th = { th with phase := .awake k timed false } := by
  unfold Thread.wake
  rw [hphase]
  exact if_pos rfl

theorem wake_of_not (hnot : th.phase.isQueued kind = false) : Thread.wake kind th = th := by
  unfold Thread.wake
  split
  · rename_i hphase
    refine if_neg fun hk => ?_
    simp [hphase, Phase.isQueued, hk] at hnot
  · rfl

theorem isQueued_eq_true (h : th.phase.isQueued kind = true) :
    ∃ timed, th.phase = .queued kind timed := by
  cases hphase : th.phase with
  | queued k timed =>
    rw [hphase] at h
    obtain rfl : k = kind := by simpa [Phase.isQueued] using h
    exact ⟨timed, rfl⟩
  | _ =>
    rw [hphase] at h
    cases h

theorem isQueued_wake (th : Thread) : (Thread.wake kind th).phase.isQueued kind = false := by
  by_cases hqueued : th.phase.isQueued kind = true
  · obtain ⟨timed, hphase⟩ := isQueued_eq_true hqueued
    rw [wake_queued hphase]
    rfl
  · have hnot := Bool.eq_false_iff.mpr hqueued
    rw [wake_of_not hnot]
    exact hnot

/-- What is the same for a thread in the list and one that has left it. -/
theorem wake_same {p : Phase → Bool}
    (hp : ∀ timed, p (.awake kind timed false) = p (.queued kind timed)) (th : Thread) :
    p (Thread.wake kind th).phase = p th.phase := by
  by_cases hqueued : th.phase.isQueued kind = true
  · obtain ⟨timed, hphase⟩ := isQueued_eq_true hqueued
    rw [wake_queued hphase, hphase]
    exact hp timed
  · rw [wake_of_not (Bool.eq_false_iff.mpr hqueued)]

/-- The signal to a writer: one is awake now, or there is a unit. -/
theorem Inv.signal (h : s.Inv) (ht : s.threads[t]? = some th) (hphase : th.phase = .notify .write)
    (hgoes : s.GoesWell t th.phase) : (s.signal .write).Inv ∧
      (s.signal .write).threads[t]? = some th ∧
      (0 < tally (s.signal .write).threads (Phase.isParked .write) +
          tally (s.signal .write).threads (Phase.isQueued .write) →
        0 < ((s.signal .write).cond .write).value ∨
          1 < tally (s.signal .write).threads Phase.answers) := by
  have hfits := (h.holds .write).fits
  unfold System.signal Cond.pthreadCondSignal
  obtain ⟨hnone, hrelease⟩ | ⟨u, thu, waiters, hwaiters, hu, hwaits, hrelease⟩ :=
    (h.holds .write).release_cases (Thread.wake .write)
  · rw [hrelease]
    dsimp only
    rw [hphase] at hgoes
    have hunit : 0 < tally s.threads (Phase.isParked .write) +
        tally s.threads (Phase.isQueued .write) → 0 < ((s.cond .write).value + 1) % 2 ^ 16 := by
      intro hpos
      have hqueued : tally s.threads (Phase.isQueued .write) = 0 := hnone
      rw [Nat.mod_eq_of_lt (hgoes.resolve_right (by omega))]
      exact Nat.succ_pos _
    refine ⟨⟨⟨h.numbers.holders, h.numbers.waiting, fun _ hpos => ?_, h.numbers.reader⟩, h.owned,
      fun k => ?_, h.holding, h.fresh, h.destroyed⟩, ht, fun hpos => ?_⟩
    · dsimp only
      rw [Function.update_self]
      exact .inl (hunit hpos)
    · by_cases hk : k = .write
      · subst hk
        dsimp only
        rw [Function.update_self]
        exact (h.holds .write).release hnone
      · dsimp only
        rw [Function.update_of_ne hk]
        exact h.holds k
    · rw [Function.update_self]
      exact .inl (hunit hpos)
  · obtain ⟨timed, hqueued⟩ := isQueued_eq_true hwaits
    have hne : t ≠ u := by
      rintro rfl
      rw [ht] at hu
      obtain rfl := Option.some.inj hu
      cases hphase.symm.trans hqueued
    rw [hrelease, wake_queued hqueued]
    dsimp only
    have hanswers := tally_set hu { thu with phase := .awake .write timed false } Phase.answers
    have hone := tally_pos (p := Phase.answers) ht (by rw [hphase]; rfl)
    rw [hqueued] at hanswers
    simp only [Phase.answers, Bool.toNat_false, Bool.toNat_true] at hanswers
    refine ⟨h.atSem hu rfl (h.waitingOn hu ?_ ?_ ?_ ?_)
      ((h.holds .write).pop hwaiters hu rfl) ?_ ?_ rfl ?_, ?_, fun _ => .inr ?_⟩
    · simp [hqueued, Phase.waits]
    · simp [hqueued, Phase.announces]
    · intro _ _ _
      exact .inr (by omega)
    · intro hmoved hall
      have hparked := hmoved.parked .read
      have hqueuedR := hmoved.queued .read
      simp [hqueued, Phase.isParked, Phase.isQueued] at hparked hqueuedR
      rw [Function.update_of_ne (by decide)]
      omega
    · intro k hk
      simp [hqueued, Phase.isQueued, Ne.symm hk]
    · simp [hqueued, Phase.owns]
    · simp [hqueued, Phase.starts]
    · rw [List.getElem?_set_ne hne.symm]
      exact ht
    · omega

/-- Behind the signal or the broadcast. -/
theorem Inv.notified (h : s.Inv) (ht : s.threads[t]? = some th)
    (hphase : th.phase = .notify kind)
    (hwriter : kind = .write →
      0 < tally s.threads (Phase.isParked .write) + tally s.threads (Phase.isQueued .write) →
      0 < (s.cond .write).value ∨ 1 < tally s.threads Phase.answers)
    (hreader : kind = .read → tally s.threads (Phase.isQueued .read) = 0 ∧
      tally s.threads (Phase.isParked .read) ≤ (s.cond .read).value) :
    (s.put t { th with phase := .leaving false .ok }).Inv := by
  have hmoved := moved ht { th with phase := .leaving false .ok }
  have hwaits := hmoved.waits
  have hparked := hmoved.parked
  have hqueued := hmoved.queued
  have hanswers := hmoved.answers
  have hannounces := hmoved.announces
  simp only [hphase, Phase.waits, Phase.isParked, Phase.isQueued, Bool.toNat_false, Nat.add_zero]
    at hwaits hparked hqueued
  have hnumbers : Numbers s.refcount s.nwait s.cond
      (s.threads.set t { th with phase := .leaving false .ok }) := by
    refine ⟨?_, fun k => ?_, fun hzero hpos => ?_, fun hcount hnone hann => ?_⟩
    · rw [Nat.add_right_cancel hmoved.readers, Nat.add_right_cancel hmoved.writers]
      exact h.numbers.holders
    · rw [hwaits]
      exact h.numbers.waiting k
    · rw [hparked, hqueued] at hpos
      cases kind with
      | read =>
        rw [hphase] at hanswers
        rw [Nat.add_right_cancel hanswers]
        exact h.numbers.writer hzero hpos
      | write =>
        rw [hphase] at hanswers
        simp only [Phase.answers, Bool.toNat_false, Bool.toNat_true] at hanswers
        rcases hwriter rfl hpos with hunit | hone
        · exact .inl hunit
        · exact .inr (by omega)
    · rw [hparked, hqueued]
      cases kind with
      | read => exact hreader rfl
      | write =>
        rw [hphase] at hannounces
        rw [Nat.add_right_cancel hannounces] at hann
        exact h.numbers.reader hcount hnone hann
  exact h.within ht hnumbers (h.owned.same ht (by simp [hphase, Phase.owns]))
    (fun k => by simp [hphase, Phase.isQueued]) rfl (by simp [hphase, Phase.starts]) h.destroyed

theorem Inv.afterSignal (h : s.Inv) (ht : s.threads[t]? = some th)
    (hphase : th.phase = .notify .write) (hgoes : s.GoesWell t th.phase) :
    ((s.signal .write).put t { th with phase := .leaving false .ok }).Inv := by
  obtain ⟨hinv, ht', henough⟩ := h.signal ht hphase hgoes
  exact hinv.notified ht' hphase (fun _ => henough) fun hkind => by cases hkind

theorem tally_wake (threads : List Thread) {p : Phase → Bool}
    (hp : ∀ timed, p (.awake kind timed false) = p (.queued kind timed)) :
    tally (threads.map (Thread.wake kind)) p = tally threads p := by
  unfold tally
  rw [List.countP_map]
  congr 1
  funext th
  exact wake_same hp th

theorem sum_wake (threads : List Thread) {f : Thread → Nat}
    (hf : ∀ th phase, f { th with phase } = f th) :
    ((threads.map (Thread.wake kind)).map f).sum = (threads.map f).sum := by
  rw [List.map_map]
  congr 1
  refine List.map_congr_left fun th _ => ?_
  by_cases hqueued : th.phase.isQueued kind = true
  · obtain ⟨timed, hphase⟩ := isQueued_eq_true hqueued
    rw [Function.comp_apply, wake_queued hphase]
    exact hf th _
  · rw [Function.comp_apply, wake_of_not (Bool.eq_false_iff.mpr hqueued)]

/-- What holds of a thread wherever it is. -/
theorem forall_mem_wake {threads : List Thread} {P : Thread → Prop} (h : ∀ th ∈ threads, P th)
    (hP : ∀ th timed, th.phase = .queued kind timed → P th →
      P { th with phase := .awake kind timed false }) :
    ∀ th ∈ threads.map (Thread.wake kind), P th := by
  intro th' hmem
  obtain ⟨th, hth, rfl⟩ := List.mem_map.mp hmem
  by_cases hqueued : th.phase.isQueued kind = true
  · obtain ⟨timed, hphase⟩ := isQueued_eq_true hqueued
    rw [wake_queued hphase]
    exact hP th timed hphase (h th hth)
  · rw [wake_of_not (Bool.eq_false_iff.mpr hqueued)]
    exact h th hth

theorem Inv.broadcast_eq (h : s.Inv) : s.broadcast .read = { s with
    cond := Function.update s.cond .read { value := max 1 (s.cond .read).value, waiters := [] }
    threads := s.threads.map (Thread.wake .read) } := by
  unfold System.broadcast
  rw [(h.holds .read).pthreadCondBroadcast_eq isQueued_wake fun _ => wake_of_not]

/-- The broadcast to the readers: none is in the list now. -/
theorem Inv.broadcast (h : s.Inv) (ht : s.threads[t]? = some th)
    (hphase : th.phase = .notify .read) : (s.broadcast .read).Inv := by
  have hannounces := tally_pos (p := Phase.announces) ht (by rw [hphase]; rfl)
  rw [h.broadcast_eq]
  refine ⟨⟨?_, fun k => ?_, fun hzero => ?_, fun _ _ hnone => ?_⟩,
    h.owned.map (wake_same fun _ => rfl), fun k => ?_, forall_mem_wake h.holding ?_,
    fun hinit => ?_, h.destroyed⟩
  · unfold writers readers
    rw [sum_wake _ fun _ _ => rfl, sum_wake _ fun _ _ => rfl]
    exact h.numbers.holders
  · rw [tally_wake _ fun _ => rfl]
    exact h.numbers.waiting k
  · rw [tally_wake _ fun _ => rfl, tally_wake _ fun _ => rfl, tally_wake _ fun _ => rfl]
    exact h.numbers.writer hzero
  · rw [tally_wake _ fun _ => rfl] at hnone
    omega
  · cases k with
    | read => exact (h.holds .read).broadcast isQueued_wake
    | write => exact (h.holds .write).map (wake_same fun _ => rfl)
  · intro _ _ _ _ hunlocks
    cases hunlocks
  · have hstart := (h.fresh hinit th (List.mem_of_getElem? ht)).2.2
    rw [hphase] at hstart
    cases hstart

theorem Inv.afterBroadcast (h : s.Inv) (ht : s.threads[t]? = some th)
    (hphase : th.phase = .notify .read) (hgoes : s.GoesWell t th.phase) :
    ((s.broadcast .read).put t { th with phase := .leaving false .ok }).Inv := by
  have hinv := h.broadcast ht hphase
  have ht' : (s.broadcast .read).threads[t]? = some th := by
    rw [h.broadcast_eq]
    dsimp only
    rw [List.getElem?_map, ht, Option.map_some, wake_of_not (by rw [hphase]; rfl)]
  have hempty : tally (s.broadcast .read).threads (Phase.isQueued .read) = 0 := by
    rw [h.broadcast_eq]
    refine List.countP_eq_zero.mpr fun th' hmem => ?_
    obtain ⟨th, -, rfl⟩ := List.mem_map.mp hmem
    simp [isQueued_wake]
  have hunits : tally (s.broadcast .read).threads (Phase.isParked .read) ≤
      ((s.broadcast .read).cond .read).value := by
    rw [h.broadcast_eq]
    dsimp only
    rw [tally_wake _ fun _ => rfl, Function.update_self]
    rw [hphase] at hgoes
    exact hgoes
  exact hinv.notified ht' hphase (fun hkind => by cases hkind) fun _ => ⟨hempty, hunits⟩

/-! ## Destroying it -/

/-- New semaphores where nobody waits. -/
theorem Inv.renewCond (h : s.Inv) (hnone : ∀ kind, s.nwait kind = 0) :
    Inv { s with cond := fun _ => {} } := by
  have hzero : ∀ kind, tally s.threads (Phase.isParked kind) = 0 ∧
      tally s.threads (Phase.isQueued kind) = 0 := by
    intro kind
    have hle := tally_parked_add_queued_le s.threads kind
    rw [← h.numbers.waiting, hnone] at hle
    omega
  refine ⟨⟨h.numbers.holders, h.numbers.waiting, fun _ hpos => ?_, fun _ _ _ => ?_⟩, h.owned,
    fun kind => Cond.holds_nil (hzero kind).2, h.holding, h.fresh, h.destroyed⟩
  · dsimp only at hpos
    rw [(hzero .write).1, (hzero .write).2] at hpos
    cases hpos
  · exact ⟨(hzero .read).2, Nat.le_of_eq (hzero .read).1⟩

/-- Nobody waits when it tries the semaphores. -/
theorem Inv.destroy (h : s.Inv) (ht : s.threads[t]? = some th)
    (hphase : th.phase = .inside .destroy) (hgoes : s.GoesWell t th.phase) :
    (s.destroy t th).Inv := by
  rw [hphase] at hgoes
  obtain ⟨hcount, hreaders, hwriters⟩ := hgoes
  have hnone : ∀ kind, s.nwait kind = 0 := by
    intro kind
    cases kind
    · exact hreaders
    · exact hwriters
  have hleave : ∀ {s : System} (_ : s.Inv) (_ : s.threads[t]? = some th) (result : Result),
      (s.put t { th with phase := .leaving true result }).Inv := by
    intro s h ht result
    have hat : s.AtTest th .read s.nwait := by
      constructor <;> simp [hphase, Phase.owns, Phase.starts, Phase.isParked, Phase.isQueued,
        Phase.announces, Phase.answers, Phase.waits]
    exact h.leave ht hat (hat.answers rfl) (fun hkind => by cases hkind) true result
  unfold System.destroy
  rw [if_neg (by simp [hcount, hnone])]
  split
  · exact hleave (h.renewCond hnone) ht .ok
  · exact hleave h ht .ebusy

/-! ## Every step -/

/-- The mutex is given back; a lock that is destroyed goes on. -/
theorem Inv.leaving (h : s.Inv) (ht : s.threads[t]? = some th) {destroys : Bool} {result : Result}
    (hphase : th.phase = .leaving destroys result) {phase : Phase}
    (hnext : phase = .idle ∨ phase = .destroying) :
    ((s.pthreadMutexUnlock t).put t { th with phase }).Inv := by
  have howner := h.owned.eq_some ht (by rw [hphase]; rfl)
  have howned := h.owned
  rw [howner] at howned
  unfold pthreadMutexUnlock
  rw [howner, if_pos rfl]
  refine h.alike ht ?_ (howned.give ht ?_) ?_ ?_ fun _ => rfl
  · rw [hphase]
    rcases hnext with rfl | rfl <;> exact ⟨fun _ => ⟨rfl, rfl, rfl⟩, rfl, rfl⟩
  · rcases hnext with rfl | rfl <;> rfl
  · intro hun
    rcases hnext with rfl | rfl <;> cases hun
  · intro hinit
    have hstart := (h.fresh hinit th (List.mem_of_getElem? ht)).2.2
    rw [hphase] at hstart
    cases hstart

theorem Inv.mutexDestroy (h : s.Inv) : s.pthreadMutexDestroy.Inv := by
  unfold pthreadMutexDestroy
  split
  · rename_i hfree
    exact ⟨h.numbers, h.owned, h.holds, h.holding, h.fresh, fun _ => hfree.2⟩
  · exact h

theorem Inv.go (h : s.Inv) (ht : s.threads[t]? = some th) (hgoes : s.GoesWell t th.phase)
    {s' : System} (hstep : s.go t th = some s') : s'.Inv := by
  unfold System.go at hstep
  split at hstep
  · cases hstep
  · rename_i op hphase
    split at hstep
    · rename_i hinit
      refine h.mutexLock ht hphase hstep rfl ⟨fun _ => ⟨rfl, rfl, rfl⟩, rfl, rfl⟩
        ⟨fun _ => ⟨rfl, rfl, rfl⟩, rfl, rfl⟩ rfl rfl ?_ ?_ (.inl hinit)
      · cases op <;> exact id
      · cases op <;> exact id
    · split at hstep
      · obtain rfl := Option.some.inj hstep
        exact h.elsewhere ht hphase ⟨fun _ => ⟨rfl, rfl, rfl⟩, rfl, rfl⟩ rfl
          (fun hun => by cases hun) fun _ => rfl
      · obtain rfl := Option.some.inj hstep
        refine h.elsewhere ht hphase ⟨fun _ => ⟨rfl, rfl, rfl⟩, rfl, rfl⟩ rfl ?_ fun _ => rfl
        cases op <;> exact id
  · rename_i op hphase
    rw [hphase] at hgoes
    obtain rfl := Option.some.inj hstep
    refine (h.init hgoes).elsewhere ht hphase ⟨fun _ => ⟨rfl, rfl, rfl⟩, rfl, rfl⟩ rfl ?_
      fun _ => rfl
    cases op <;> exact id
  · rename_i op hphase
    rw [hphase] at hgoes
    obtain rfl := Option.some.inj hstep
    refine (h.mutexInit hgoes).elsewhere ht hphase ⟨fun _ => ⟨rfl, rfl, rfl⟩, rfl, rfl⟩ rfl ?_
      fun _ => rfl
    cases op <;> exact id
  · rename_i kind wait hphase
    obtain rfl := Option.some.inj hstep
    refine h.lock ht (atTest_inside hphase) (fun hkind => ?_) fun _ => ⟨rfl, by rw [hphase]; rfl⟩
    subst hkind
    rw [hphase] at hgoes
    exact hgoes
  · rename_i hphase
    obtain rfl := Option.some.inj hstep
    exact h.unlock ht hphase
  · rename_i hphase
    obtain rfl := Option.some.inj hstep
    exact h.destroy ht hphase hgoes
  · rename_i kind timed hphase
    obtain ⟨hvalue, htake⟩ | ⟨hvalue, htake⟩ := (s.cond kind).semTrytake_cases
    · simp only [htake] at hstep
      obtain rfl := Option.some.inj hstep
      exact h.semTake ht hphase hvalue
    · simp only [htake] at hstep
      obtain rfl := Option.some.inj hstep
      exact h.semJoin ht hphase hvalue
  · cases hstep
  · rename_i kind timed expired hphase
    refine h.mutexLock ht hphase hstep rfl ⟨fun _ => ⟨rfl, rfl, rfl⟩, ?_, rfl⟩
      ⟨fun _ => ⟨rfl, rfl, rfl⟩, ?_, rfl⟩ rfl rfl (fun hun => by cases hun)
      (fun hun => by cases hun) (.inr rfl)
    · cases kind <;> cases expired <;> rfl
    · cases kind <;> cases expired <;> rfl
  · rename_i kind timed expired hphase
    rw [hphase] at hgoes
    obtain rfl := Option.some.inj hstep
    refine (h.mutexInit hgoes).elsewhere ht hphase ⟨fun _ => ⟨rfl, rfl, rfl⟩, ?_, rfl⟩ rfl
      (fun hun => by cases hun) fun hstart => by cases hstart
    cases kind <;> cases expired <;> rfl
  · rename_i kind timed expired hphase
    obtain rfl := Option.some.inj hstep
    exact h.relock ht hphase hgoes
  · rename_i hphase
    obtain rfl := Option.some.inj hstep
    exact h.afterSignal ht hphase hgoes
  · rename_i hphase
    obtain rfl := Option.some.inj hstep
    exact h.afterBroadcast ht hphase hgoes
  · rename_i destroys result hphase
    obtain rfl := Option.some.inj hstep
    refine h.leaving ht hphase ?_
    split
    · exact .inr rfl
    · exact .inl rfl
  · rename_i hphase
    obtain rfl := Option.some.inj hstep
    have hdestroy := h.mutexDestroy
    have hthreads : s.pthreadMutexDestroy.threads[t]? = some th := by
      unfold pthreadMutexDestroy
      split <;> exact ht
    exact hdestroy.elsewhere hthreads hphase ⟨fun _ => ⟨rfl, rfl, rfl⟩, rfl, rfl⟩ rfl
      (fun hun => by cases hun) fun hstart => by cases hstart

theorem Inv.step (h : s.Inv) {e : Event} (hsound : s.Sound e) {s' : System}
    (hstep : s.step e = some s') : s'.Inv := by
  cases e with
  | call t op =>
    obtain ⟨th, ht, hcall⟩ := Option.bind_eq_some_iff.mp hstep
    split at hcall
    · rename_i hidle
      obtain rfl := Option.some.inj hcall
      refine h.alike ht ?_ (h.owned.same ht ?_) (fun hun => hidle.2 ?_) (fun _ => rfl) h.destroyed
      · rw [hidle.1]
        exact ⟨fun _ => ⟨rfl, rfl, rfl⟩, rfl, rfl⟩
      · rw [hidle.1]
        rfl
      · cases op with
        | unlock => rfl
        | _ => cases hun
    · cases hcall
  | go t =>
    obtain ⟨th, ht, hgo⟩ := Option.bind_eq_some_iff.mp hstep
    exact h.go ht (hsound th ht) hgo
  | timeout t =>
    obtain ⟨th, ht, hexpire⟩ := Option.bind_eq_some_iff.mp hstep
    exact h.expire ht hexpire

theorem inv_start (initialized : Bool) (n : Nat) : (start initialized n).Inv := by
  have hidle : ∀ th ∈ List.replicate n ({} : Thread), th = {} := fun th => List.eq_of_mem_replicate
  refine inv_of_fresh (fun th hmem => ?_) fun th hmem hun => ?_
  · rw [hidle th hmem]
    exact ⟨rfl, rfl, rfl⟩
  · rw [hidle th hmem] at hun
    cases hun

/-! ## Where nobody can go on -/

theorem owner_of_pthreadMutexLock {renewing locked failed : Phase}
    (hlock : s.pthreadMutexLock t th renewing locked failed = none) : s.owner ≠ none := by
  intro howner
  unfold pthreadMutexLock at hlock
  rw [howner] at hlock
  split at hlock <;> cases hlock

/-- A thread that cannot go on is in no call, is in the list of a semaphore, or waits for the
mutex. -/
theorem phase_of_go_eq_none (hgo : s.go t th = none) :
    th.phase = .idle ∨ (∃ kind timed, th.phase = .queued kind timed) ∨
      (th.phase.owns = false ∧ s.owner ≠ none) := by
  unfold System.go at hgo
  split at hgo
  · rename_i hphase
    exact .inl hphase
  · rename_i op hphase
    split at hgo
    · exact .inr (.inr ⟨by rw [hphase]; rfl, owner_of_pthreadMutexLock hgo⟩)
    · split at hgo <;> cases hgo
  all_goals try cases hgo
  · dsimp only at hgo
    split at hgo <;> cases hgo
  · rename_i kind timed hphase
    exact .inr (.inl ⟨kind, timed, hphase⟩)
  · rename_i hphase
    exact .inr (.inr ⟨by rw [hphase]; rfl, owner_of_pthreadMutexLock hgo⟩)

theorem Quiescent.go (hq : s.Quiescent) (ht : s.threads[t]? = some th) : s.go t th = none := by
  have hnone : s.threads[t]?.bind (s.go t) = none := hq t
  rwa [ht] at hnone

/-- Who has the mutex can go on, so nobody has it. -/
theorem Inv.owner_of_quiescent (h : s.Inv) (hq : s.Quiescent) : s.owner = none := by
  cases howner : s.owner with
  | none => rfl
  | some u =>
    obtain ⟨a, ha, hown⟩ := (h.owned u).mp howner
    obtain hidle | ⟨kind, timed, hqueued⟩ | ⟨hnot, -⟩ := phase_of_go_eq_none (hq.go ha)
    · simp [hidle, Phase.owns] at hown
    · simp [hqueued, Phase.owns] at hown
    · cases hnot.symm.trans hown

/-- All of them are in no call, or in the list of a semaphore. -/
theorem Inv.phase_of_quiescent (h : s.Inv) (hq : s.Quiescent) (hmem : th ∈ s.threads) :
    th.phase = .idle ∨ ∃ kind timed, th.phase = .queued kind timed := by
  obtain ⟨t, ht⟩ := List.mem_iff_getElem?.mp hmem
  obtain hidle | hqueued | ⟨-, howner⟩ := phase_of_go_eq_none (hq.go ht)
  · exact .inl hidle
  · exact .inr hqueued
  · exact absurd (h.owner_of_quiescent hq) howner

theorem Inv.tally_of_quiescent (h : s.Inv) (hq : s.Quiescent) {p q : Phase → Bool}
    (hidle : p .idle = q .idle) (hqueued : ∀ kind timed, p (.queued kind timed) =
      q (.queued kind timed)) : tally s.threads p = tally s.threads q := by
  refine List.countP_congr fun th hmem => ?_
  rcases h.phase_of_quiescent hq hmem with hphase | ⟨kind, timed, hphase⟩
  · rw [hphase, hidle]
  · rw [hphase, hqueued]

theorem Inv.agrees (h : s.Inv) : s.Agrees where
  refcount := h.numbers.holders
  mutex := fun t howner => by
    obtain ⟨th, ht, hown⟩ := (h.owned t).mp howner
    refine ⟨th, ht, fun hidle => ?_⟩
    simp [hidle, Phase.owns] at hown
  reader := fun hq hblocked => by
    have hnone : tally s.threads Phase.announces = 0 :=
      (h.tally_of_quiescent hq (q := fun _ => false) rfl fun _ _ => rfl).trans (by simp [tally])
    rw [h.tally_of_quiescent hq (p := Phase.locks .read) (q := Phase.isQueued .read) rfl
      fun _ _ => rfl] at hblocked
    rw [h.tally_of_quiescent hq (p := Phase.locks .write) (q := Phase.waits .write) rfl
      fun _ _ => rfl, ← h.numbers.waiting]
    have hholders := h.numbers.holders
    have hreader := h.numbers.reader
    by_contra hno
    have := hreader (by omega) (by omega) hnone
    omega
  writer := fun hq hblocked => by
    have hnone : tally s.threads Phase.answers = 0 :=
      (h.tally_of_quiescent hq (q := fun _ => false) rfl fun _ _ => rfl).trans (by simp [tally])
    rw [h.tally_of_quiescent hq (p := Phase.locks .write) (q := Phase.isQueued .write) rfl
      fun _ _ => rfl] at hblocked
    have hholders := h.numbers.holders
    by_contra hno
    rcases h.numbers.writer (by omega) (by omega) with hunit | hanswers
    · have hempty := (h.holds .write).queued.eq_nil_iff.mp ((h.holds .write).empty hunit)
      exact absurd hempty (Nat.pos_iff_ne_zero.mp hblocked)
    · omega

end System

/-- Where no step goes wrong, the lock does what is asked of it. -/
theorem rwlock_throughout (initialized : Bool) (n : Nat) (es : List Event)
    (h : Along System.step System.Sound (System.start initialized n) es) :
    Throughout System.step System.Agrees (System.start initialized n) es :=
  throughout_of_along (fun _ => System.Inv.agrees)
    (fun _ _ _ hinv hsound hstep => hinv.step hsound hstep) (System.inv_start initialized n) h

instance (s : System) (t : Nat) : Decidable (s.Alone t) :=
  inferInstanceAs (Decidable (∀ u < s.threads.length, u ≠ t → _))

instance (s : System) (t : Nat) (phase : Phase) : Decidable (s.GoesWell t phase) :=
  match phase with
  | .initializing _ => inferInstanceAs (Decidable (_ = _))
  | .renewing _ | .rising _ _ _ => inferInstanceAs (Decidable (_ = _))
  | .inside (.lock .read _) | .back .read _ false => inferInstanceAs (Decidable (_ → _))
  | .inside .destroy => inferInstanceAs (Decidable (_ ∧ _))
  | .back .write _ true => inferInstanceAs (Decidable (_ → _))
  | .notify .read => inferInstanceAs (Decidable (_ ≤ _))
  | .notify .write => inferInstanceAs (Decidable (_ ∨ _))
  | .destroying => inferInstanceAs (Decidable (_ → s.Alone t))
  | .idle | .entering _ | .inside (.lock .write _) | .inside .unlock => isTrue trivial
  | .parked _ _ | .queued _ _ | .awake _ _ _ | .leaving _ _ => isTrue trivial
  | .back .read _ true | .back .write _ false => isTrue trivial

instance (s : System) : DecidablePred s.Sound
  | .call _ _ => isTrue trivial
  | .go t => inferInstanceAs (Decidable (∀ th ∈ s.threads[t]?, s.GoesWell t th.phase))
  | .timeout _ => isTrue trivial

/-- A writer waits for a reader, which lets it on. -/
def handover : List Event :=
  [.call 0 (.lock .read .forever), .go 0, .go 0, .go 0, .go 0, .go 0,
    .call 1 (.lock .write .timed), .go 1, .go 1, .go 1, .call 0 .unlock, .go 0, .go 0, .go 0,
    .go 0, .go 1, .go 1, .go 1]

theorem rwlock_throughout_handover :
    (run System.step (System.start false 2) handover).map (·.refcount) = some (-1) ∧
      Throughout System.step System.Agrees (System.start false 2) handover :=
  ⟨by decide +kernel, rwlock_throughout false 2 handover (by decide +kernel)⟩

/-- A lock that is in use is to be destroyed. -/
theorem rwlock_mutex_kept : ¬ Throughout System.step System.Agrees (System.start true 2)
    [.call 0 (.lock .read .forever), .go 0, .go 0, .go 0, .call 1 .destroy, .go 1, .go 1] := by
  intro h
  obtain ⟨s, hrun, howner, hidle⟩ : ∃ s, run System.step (System.start true 2)
      [.call 0 (.lock .read .forever), .go 0, .go 0, .go 0, .call 1 .destroy, .go 1, .go 1] =
        some s ∧ s.owner = some 1 ∧ s.threads[1]? = some { phase := .idle } := ⟨_, rfl, rfl, rfl⟩
  obtain ⟨th, ht, hphase⟩ := (h.last hrun).mutex 1 howner
  rw [hidle] at ht
  obtain rfl := Option.some.inj ht
  exact hphase rfl

end ControlRTT.Components.RwLock

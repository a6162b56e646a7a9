import ControlRTT.Lib.Runs
import ControlRTT.Kernel.ReadyMap

/-! # The ready lists (scheduler.c, thread.c)

Threads are started, suspended and resumed, give way, exit and change priorities. As long
as ready threads have priorities below `RT_THREAD_PRIORITY_MAX`, the bitmap says which
lists are not empty, a ready thread is on the list of its priority and on no other, and
`rt_schedule` selects a ready thread of the highest priority. `rt_thread_control` takes
any 8-bit number as a priority. -/
namespace ControlRTT.Kernel.Scheduler
open ControlRTT.Lib.Runs ControlRTT.Kernel.ReadyMap

inductive Stat where
  | init
  | ready
  | suspend
  | close
  deriving DecidableEq, Repr

structure Tcb where
  stat : Stat := .init
  initPriority : Nat
  currentPriority : Nat
  attr : PrioAttr := {}
  deriving DecidableEq, Repr

/-- The scheduler's variables; `max` is `RT_THREAD_PRIORITY_MAX`. -/
structure Sched (Thread : Type) where
  max : Nat
  tcb : Thread → Tcb
  priorityTable : Nat → List Thread := fun _ => []
  ready : ReadyTable := {}
  current : Option Thread := none
  currentPriority : Nat
  lockNest : Int

variable {Thread : Type} [DecidableEq Thread]

namespace Sched

def setTcb (s : Sched Thread) (t : Thread) (b : Tcb) : Sched Thread :=
  { s with tcb := fun u => if u = t then b else s.tcb u }

def setStat (s : Sched Thread) (t : Thread) (stat : Stat) : Sched Thread :=
  s.setTcb t { s.tcb t with stat := stat }

/-- The priority with its attributes. -/
def setPriority (s : Sched Thread) (t : Thread) (priority : Nat) : Sched Thread :=
  s.setTcb t { s.tcb t with currentPriority := priority, attr := prioAttr s.max priority }

/-- `rt_list_remove`: the thread leaves whatever list it is on. -/
def unlink (s : Sched Thread) (t : Thread) : Sched Thread :=
  { s with priorityTable := fun p => (s.priorityTable p).erase t }

/-- At the end of the list of its priority. -/
def append (s : Sched Thread) (t : Thread) : Sched Thread :=
  { s with priorityTable := fun p =>
      if p = (s.tcb t).currentPriority then s.priorityTable p ++ [t] else s.priorityTable p }

def rtScheduleInsertThread (s : Sched Thread) (t : Thread) : Sched Thread :=
  { (s.setStat t .ready).append t with ready := s.ready.set s.max (s.tcb t).attr }

def rtScheduleRemoveThread (s : Sched Thread) (t : Thread) : Sched Thread :=
  if (s.unlink t).priorityTable (s.tcb t).currentPriority = [] then
    { s.unlink t with ready := s.ready.clear s.max (s.tcb t).attr }
  else s.unlink t

/-- The thread at the head of the list that the search finds. -/
def toThread (s : Sched Thread) : Option Thread :=
  (s.priorityTable (s.ready.highest s.max)).head?

def rtSchedule (s : Sched Thread) : Sched Thread :=
  if s.lockNest ≠ 0 then s
  else if s.toThread = s.current then s
  else { s with current := s.toThread, currentPriority := s.ready.highest s.max % 256 }

def rtThreadSuspend (s : Sched Thread) (t : Thread) : Sched Thread :=
  if (s.tcb t).stat ≠ .ready then s else (s.setStat t .suspend).rtScheduleRemoveThread t

def rtThreadResume (s : Sched Thread) (t : Thread) : Sched Thread :=
  if (s.tcb t).stat ≠ .suspend then s else (s.unlink t).rtScheduleInsertThread t

/-- `rt_thread_startup` up to `rt_schedule`, for a thread that is new. -/
def rtThreadStartup (s : Sched Thread) (t : Thread) : Sched Thread :=
  ((s.setPriority t (s.tcb t).initPriority).setStat t .suspend).rtThreadResume t

/-- `rt_thread_control` with `RT_THREAD_CTRL_CHANGE_PRIORITY`. -/
def changePriority (s : Sched Thread) (t : Thread) (priority : BitVec 8) : Sched Thread :=
  if (s.tcb t).stat = .ready then
    ((s.rtScheduleRemoveThread t).setPriority t priority.toNat).rtScheduleInsertThread t
  else s.setPriority t priority.toNat

/-- Whether `rt_thread_yield` moves the current thread. -/
def Yields (s : Sched Thread) (t : Thread) : Prop :=
  (s.tcb t).stat = .ready ∧ s.priorityTable (s.tcb t).currentPriority ≠ [t]

instance (s : Sched Thread) (t : Thread) : Decidable (s.Yields t) :=
  inferInstanceAs (Decidable (_ ∧ _))

/-- `rt_thread_exit` up to `rt_schedule`. -/
def rtThreadExit (s : Sched Thread) (t : Thread) : Sched Thread :=
  (s.rtScheduleRemoveThread t).setStat t .close

end Sched

inductive Event (Thread : Type) where
  | startup (t : Thread)
  | suspend (t : Thread)
  | resume (t : Thread)
  | yield
  | changePriority (t : Thread) (priority : BitVec 8)
  | exit
  | schedule

/-- What a call does before it calls `rt_schedule`, and whether it does. A thread is
started up once; `rt_thread_yield` and `rt_thread_exit` are for the current thread. -/
def before (s : Sched Thread) : Event Thread → Option (Sched Thread × Bool)
  | .startup t =>
    if (s.tcb t).stat = .init then some (s.rtThreadStartup t, s.current.isSome) else none
  | .suspend t => some (s.rtThreadSuspend t, false)
  | .resume t => some (s.rtThreadResume t, false)
  | .yield => s.current.map fun t =>
    if s.Yields t then ((s.unlink t).append t, true) else (s, false)
  | .changePriority t priority => some (s.changePriority t priority, false)
  | .exit => s.current.map fun t => (s.rtThreadExit t, true)
  | .schedule => some (s, true)

def step (s : Sched Thread) (e : Event Thread) : Option (Sched Thread) :=
  (before s e).map fun r => if r.2 then r.1.rtSchedule else r.1

/-- After `rt_system_scheduler_init`, with threads that `rt_thread_init` has made, whose
priorities it has checked. -/
def start {max : Nat} (priority : Thread → Fin max) (lockNest : Int) : Sched Thread where
  max := max
  tcb t := { initPriority := priority t, currentPriority := priority t }
  currentPriority := max - 1
  lockNest := lockNest

/-! ## What should hold -/

/-- The bit of a priority: in the word, or in the byte that the word has a bit for. -/
def Sched.Bit (s : Sched Thread) (p : Nat) : Prop :=
  if 32 < s.max then
    s.ready.group.getLsbD (p / 8) = true ∧ (s.ready.table (p / 8)).getLsbD (p % 8) = true
  else s.ready.group.getLsbD p = true

structure Agrees (s : Sched Thread) : Prop where
  bit : ∀ p < s.max, s.Bit p ↔ s.priorityTable p ≠ []
  ready : ∀ t, (s.tcb t).stat = .ready → (s.tcb t).currentPriority < s.max ∧
    (s.priorityTable (s.tcb t).currentPriority).count t = 1
  only : ∀ t p, t ∈ s.priorityTable p → (s.tcb t).stat = .ready ∧ p = (s.tcb t).currentPriority

/-- `rt_schedule` selects a ready thread of the least priority number, if one is ready
and the scheduler is not locked. -/
def Selects (s : Sched Thread) (e : Event Thread) : Prop :=
  ∀ s', before s e = some (s', true) → s'.lockNest = 0 → (∃ t, (s'.tcb t).stat = .ready) →
    ∃ t, s'.rtSchedule.current = some t ∧ (s'.tcb t).stat = .ready ∧
      ∀ u, (s'.tcb u).stat = .ready → (s'.tcb t).currentPriority ≤ (s'.tcb u).currentPriority

/-- No thread is ready with a priority that there is no list for. -/
def Good (s : Sched Thread) : Event Thread → Prop
  | .changePriority t priority => (s.tcb t).stat = .ready → priority.toNat < s.max
  | .resume t => (s.tcb t).stat = .suspend → (s.tcb t).currentPriority < s.max
  | _ => True

/-! ## Lists and bitmap -/

/-- The lists hold the threads of `on`, each on the list of its priority, and the bitmap
stands for the lists that are not empty. -/
structure Ok (s : Sched Thread) (on : Thread → Prop) : Prop where
  max : s.max ≤ 256
  prio : ∀ t, (s.tcb t).currentPriority < 256 ∧ (s.tcb t).initPriority < s.max
  legal : ∀ t, on t → (s.tcb t).currentPriority < s.max
  attr : ∀ t, (s.tcb t).stat = .init ∨
    (s.tcb t).attr = prioAttr s.max (s.tcb t).currentPriority
  mem : ∀ t p, t ∈ s.priorityTable p ↔ on t ∧ p = (s.tcb t).currentPriority
  nodup : ∀ p, (s.priorityTable p).Nodup
  marks : Marks s.max s.ready fun p => decide (s.priorityTable p ≠ [])

namespace Ok
variable {s : Sched Thread} {on : Thread → Prop}

omit [DecidableEq Thread] in
theorem congr {on' : Thread → Prop} (h : Ok s on) (heq : ∀ t, on t ↔ on' t) : Ok s on' :=
  ⟨h.max, h.prio, fun t ht => h.legal t ((heq t).mpr ht), h.attr,
    fun t p => (h.mem t p).trans (and_congr_left' (heq t)), h.nodup, h.marks⟩

@[simp] theorem setTcb_self (s : Sched Thread) (t : Thread) (b : Tcb) :
    (s.setTcb t b).tcb t = b := if_pos rfl

theorem setTcb_ne (s : Sched Thread) {t u : Thread} (b : Tcb) (h : u ≠ t) :
    (s.setTcb t b).tcb u = s.tcb u := if_neg h

theorem setStat (h : Ok s on) {t : Thread} (stat : Stat)
    (ha : (s.tcb t).attr = prioAttr s.max (s.tcb t).currentPriority) :
    Ok (s.setStat t stat) on := by
  have hprio : ∀ u, ((s.setStat t stat).tcb u).currentPriority = (s.tcb u).currentPriority ∧
      ((s.setStat t stat).tcb u).initPriority = (s.tcb u).initPriority := by
    intro u
    by_cases hut : u = t
    · subst hut
      simp [Sched.setStat]
    · simp [Sched.setStat, setTcb_ne s _ hut]
  refine ⟨h.max, fun u => ?_, fun u hu => ?_, fun u => ?_, fun u p => ?_, h.nodup, h.marks⟩
  · rw [(hprio u).1, (hprio u).2]
    exact h.prio u
  · rw [(hprio u).1]
    exact h.legal u hu
  · by_cases hut : u = t
    · subst hut
      right
      rw [Sched.setStat, setTcb_self]
      exact ha
    · rw [Sched.setStat, setTcb_ne s _ hut]
      exact h.attr u
  · rw [(hprio u).1]
    exact h.mem u p

/-- The priority of a thread that is on no list. -/
theorem setPriority (h : Ok s on) {t : Thread} (ht : ¬ on t) {priority : Nat}
    (hp : priority < 256) : Ok (s.setPriority t priority) on := by
  refine ⟨h.max, fun u => ?_, fun u hu => ?_, fun u => ?_, fun u p => ?_, h.nodup, h.marks⟩
  · by_cases hut : u = t
    · subst hut
      rw [Sched.setPriority, setTcb_self]
      exact ⟨hp, (h.prio u).2⟩
    · rw [Sched.setPriority, setTcb_ne s _ hut]
      exact h.prio u
  · have hut : u ≠ t := fun heq => ht (heq ▸ hu)
    rw [Sched.setPriority, setTcb_ne s _ hut]
    exact h.legal u hu
  · by_cases hut : u = t
    · subst hut
      right
      rw [Sched.setPriority, setTcb_self]
      rfl
    · rw [Sched.setPriority, setTcb_ne s _ hut]
      exact h.attr u
  · refine (h.mem u p).trans ?_
    by_cases hut : u = t
    · subst hut
      exact ⟨fun hon => absurd hon.1 ht, fun hon => absurd hon.1 ht⟩
    · rw [Sched.setPriority, setTcb_ne s _ hut]

omit [DecidableEq Thread] in
/-- Lists with the same threads in another order. -/
theorem reorder (h : Ok s on) {table : Nat → List Thread}
    (hperm : ∀ p, (table p).Perm (s.priorityTable p)) :
    Ok { s with priorityTable := table } on where
  max := h.max
  prio := h.prio
  legal := h.legal
  attr := h.attr
  mem t p := (hperm p).mem_iff.trans (h.mem t p)
  nodup p := (hperm p).nodup_iff.mpr (h.nodup p)
  marks := h.marks.congr fun p _ => by
    rw [decide_eq_decide]
    refine not_congr ?_
    rw [← List.length_eq_zero_iff, ← (hperm p).length_eq, List.length_eq_zero_iff]

theorem unlink_eq (h : Ok s on) {t : Thread} (ht : ¬ on t) : s.unlink t = s := by
  have htable : (fun p => (s.priorityTable p).erase t) = s.priorityTable :=
    funext fun p => List.erase_of_not_mem fun hmem => ht ((h.mem t p).mp hmem).1
  unfold Sched.unlink
  rw [htable]

theorem mem_unlink (h : Ok s on) (t u : Thread) (p : Nat) :
    u ∈ (s.unlink t).priorityTable p ↔
      (on u ∧ u ≠ t) ∧ p = (s.tcb u).currentPriority := by
  refine (h.nodup p).mem_erase_iff.trans ?_
  rw [h.mem u p, ← and_assoc, and_comm (a := u ≠ t)]

/-- A thread leaves its list, and the bit is cleared with the last. -/
theorem remove (h : Ok s on) {t : Thread}
    (ha : (s.tcb t).attr = prioAttr s.max (s.tcb t).currentPriority) :
    Ok (s.rtScheduleRemoveThread t) fun u => on u ∧ u ≠ t := by
  -- the other lists stay as they are
  have hother : ∀ p, p ≠ (s.tcb t).currentPriority →
      (s.unlink t).priorityTable p = s.priorityTable p := fun p hp =>
    List.erase_of_not_mem fun hmem => hp ((h.mem t p).mp hmem).2
  have hnodup : ∀ p, ((s.unlink t).priorityTable p).Nodup := fun p => (h.nodup p).erase t
  unfold Sched.rtScheduleRemoveThread
  split
  · rename_i hempty
    refine ⟨h.max, h.prio, fun u hu => h.legal u hu.1, h.attr, h.mem_unlink t, hnodup, ?_⟩
    rw [ha]
    refine (h.marks.clear _).congr fun p _ => ?_
    by_cases hp : p = (s.tcb t).currentPriority
    · subst hp
      dsimp only
      rw [hempty]
      simp
    · dsimp only
      rw [hother p hp]
      simp [hp]
  · rename_i hne
    refine ⟨h.max, h.prio, fun u hu => h.legal u hu.1, h.attr, h.mem_unlink t, hnodup, ?_⟩
    refine h.marks.congr fun p _ => decide_eq_decide.mpr ?_
    by_cases hp : p = (s.tcb t).currentPriority
    · subst hp
      refine ⟨fun _ => hne, fun _ he => hne ?_⟩
      change (s.priorityTable _).erase t = []
      rw [he]
      rfl
    · rw [hother p hp]

/-- A thread goes to the end of its list, and the bit is set. -/
theorem insert (h : Ok s on) {t : Thread} (ht : ¬ on t)
    (ha : (s.tcb t).attr = prioAttr s.max (s.tcb t).currentPriority)
    (hlegal : (s.tcb t).currentPriority < s.max) :
    Ok (s.rtScheduleInsertThread t) fun u => on u ∨ u = t := by
  have hs := h.setStat .ready ha
  have hprio : ∀ u, ((s.setStat t .ready).tcb u).currentPriority = (s.tcb u).currentPriority := by
    intro u
    by_cases hut : u = t
    · subst hut
      simp [Sched.setStat]
    · simp [Sched.setStat, setTcb_ne s _ hut]
  have htable : ∀ p, (s.rtScheduleInsertThread t).priorityTable p =
      if p = (s.tcb t).currentPriority then s.priorityTable p ++ [t] else s.priorityTable p := by
    intro p
    change (if p = ((s.setStat t .ready).tcb t).currentPriority then _ else _) = _
    rw [hprio]
    rfl
  refine ⟨h.max, hs.prio, fun u hu => ?_, hs.attr, fun u p => ?_, fun p => ?_, ?_⟩
  · change ((s.setStat t .ready).tcb u).currentPriority < s.max
    rw [hprio]
    obtain hu | rfl := hu
    · exact h.legal u hu
    · exact hlegal
  · change u ∈ (s.rtScheduleInsertThread t).priorityTable p ↔
      (on u ∨ u = t) ∧ p = ((s.setStat t .ready).tcb u).currentPriority
    rw [htable, hprio]
    by_cases hp : p = (s.tcb t).currentPriority
    · rw [if_pos hp, List.mem_append, h.mem u p, List.mem_singleton]
      by_cases hut : u = t
      · subst hut
        simp [hp]
      · simp [hut]
    · rw [if_neg hp, h.mem u p]
      by_cases hut : u = t
      · subst hut
        simp [hp]
      · simp [hut]
  · rw [htable]
    split
    · refine List.nodup_append.mpr ⟨h.nodup p, List.pairwise_singleton _ t, fun u hu v hv => ?_⟩
      rw [List.mem_singleton.mp hv]
      exact fun heq => ht (heq ▸ ((h.mem u p).mp hu).1)
    · exact h.nodup p
  · change Marks s.max (s.ready.set s.max (s.tcb t).attr) _
    rw [ha]
    refine (h.marks.set _).congr fun p _ => ?_
    rw [htable]
    by_cases hp : p = (s.tcb t).currentPriority
    · simp [hp]
    · simp [hp]

end Ok

/-! ## The steps -/

/-- The ready threads are on the lists, and the current thread was ready once. -/
structure Inv (s : Sched Thread) : Prop where
  ok : Ok s fun t => (s.tcb t).stat = .ready
  current : ∀ t, s.current = some t → (s.tcb t).stat ≠ .init

theorem setStat_stat (s : Sched Thread) (t u : Thread) (stat : Stat) :
    ((s.setStat t stat).tcb u).stat = if u = t then stat else (s.tcb u).stat := by
  by_cases hut : u = t
  · subst hut
    simp [Sched.setStat]
  · simp [Sched.setStat, Ok.setTcb_ne s _ hut, hut]

theorem setPriority_stat (s : Sched Thread) (t u : Thread) (priority : Nat) :
    ((s.setPriority t priority).tcb u).stat = (s.tcb u).stat := by
  by_cases hut : u = t
  · subst hut
    simp [Sched.setPriority]
  · simp [Sched.setPriority, Ok.setTcb_ne s _ hut]

theorem remove_tcb (s : Sched Thread) (t : Thread) : (s.rtScheduleRemoveThread t).tcb = s.tcb := by
  unfold Sched.rtScheduleRemoveThread
  split
  · rfl
  · rfl

theorem remove_max (s : Sched Thread) (t : Thread) : (s.rtScheduleRemoveThread t).max = s.max := by
  unfold Sched.rtScheduleRemoveThread
  split
  · rfl
  · rfl

theorem remove_current (s : Sched Thread) (t : Thread) :
    (s.rtScheduleRemoveThread t).current = s.current := by
  unfold Sched.rtScheduleRemoveThread
  split
  · rfl
  · rfl

theorem insert_stat (s : Sched Thread) (t u : Thread) :
    ((s.rtScheduleInsertThread t).tcb u).stat = if u = t then .ready else (s.tcb u).stat :=
  setStat_stat s t u .ready

namespace Inv
variable {s : Sched Thread}

omit [DecidableEq Thread] in
/-- The attributes of a thread that has been started up. -/
theorem attr (h : Inv s) {t : Thread} (ht : (s.tcb t).stat ≠ .init) :
    (s.tcb t).attr = prioAttr s.max (s.tcb t).currentPriority := (h.ok.attr t).resolve_left ht

theorem rtThreadSuspend (h : Inv s) (t : Thread) : Inv (s.rtThreadSuspend t) := by
  unfold Sched.rtThreadSuspend
  split
  · exact h
  · rename_i hnot
    have hready := not_not.mp hnot
    have ha := h.attr (t := t) (by simp [hready])
    have hself : (s.setStat t .suspend).tcb t = { s.tcb t with stat := .suspend } :=
      Ok.setTcb_self s t _
    refine ⟨((h.ok.setStat .suspend ha).remove (by rw [hself]; exact ha)).congr fun u => ?_,
      fun u hu => ?_⟩
    · rw [remove_tcb, setStat_stat]
      by_cases hut : u = t
      · simp [hut]
      · simp [hut]
    · rw [remove_current] at hu
      rw [remove_tcb, setStat_stat]
      split
      · exact fun he => by cases he
      · exact h.current u hu

/-- A suspended thread whose attributes are right becomes ready. -/
theorem resumed (h : Inv s) {t : Thread} (ht : (s.tcb t).stat = .suspend)
    (ha : (s.tcb t).attr = prioAttr s.max (s.tcb t).currentPriority)
    (hlegal : (s.tcb t).currentPriority < s.max) : Inv (s.rtThreadResume t) := by
  have hnot : (s.tcb t).stat ≠ .ready := by simp [ht]
  unfold Sched.rtThreadResume
  rw [if_neg (not_not_intro ht), h.ok.unlink_eq hnot]
  refine ⟨(h.ok.insert hnot ha hlegal).congr fun u => ?_, fun u hu => ?_⟩
  · rw [insert_stat]
    by_cases hut : u = t
    · simp [hut]
    · simp [hut]
  · rw [insert_stat]
    split
    · exact fun he => by cases he
    · exact h.current u hu

theorem rtThreadResume (h : Inv s) {t : Thread}
    (hlegal : (s.tcb t).stat = .suspend → (s.tcb t).currentPriority < s.max) :
    Inv (s.rtThreadResume t) := by
  by_cases ht : (s.tcb t).stat = .suspend
  · exact h.resumed ht (h.attr (by simp [ht])) (hlegal ht)
  · rwa [Sched.rtThreadResume, if_pos ht]

/-- The priority of a thread that is not ready is changed. -/
theorem setPriority (h : Inv s) {t : Thread} (ht : (s.tcb t).stat ≠ .ready) {priority : Nat}
    (hp : priority < 256) : Inv (s.setPriority t priority) where
  ok := (h.ok.setPriority ht hp).congr fun u => by rw [setPriority_stat]
  current u hu := by
    rw [setPriority_stat]
    exact h.current u hu

theorem rtThreadStartup (h : Inv s) {t : Thread} (ht : (s.tcb t).stat = .init) :
    Inv (s.rtThreadStartup t) := by
  have hnot : (s.tcb t).stat ≠ .ready := by simp [ht]
  have hinit := (h.ok.prio t).2
  have hp := h.setPriority hnot (hinit.trans_le h.ok.max)
  have ha : ((s.setPriority t (s.tcb t).initPriority).tcb t).attr = prioAttr s.max
      ((s.setPriority t (s.tcb t).initPriority).tcb t).currentPriority := by
    rw [Sched.setPriority, Ok.setTcb_self]
  have hnot' : ((s.setPriority t (s.tcb t).initPriority).tcb t).stat ≠ .ready := by
    rwa [setPriority_stat]
  have hs : Inv ((s.setPriority t (s.tcb t).initPriority).setStat t .suspend) := by
    refine ⟨(hp.ok.setStat .suspend ha).congr fun u => ?_, fun u hu => ?_⟩
    · rw [setStat_stat]
      by_cases hut : u = t
      · subst hut
        simp [hnot']
      · simp [hut]
    · rw [setStat_stat]
      split
      · exact fun he => by cases he
      · exact hp.current u hu
  refine hs.resumed (by rw [setStat_stat, if_pos rfl]) ?_ ?_
  · rw [Sched.setStat, Ok.setTcb_self]
    exact ha
  · rw [Sched.setStat, Ok.setTcb_self, Sched.setPriority, Ok.setTcb_self]
    exact hinit

theorem changePriority (h : Inv s) (t : Thread) {priority : BitVec 8}
    (hp : (s.tcb t).stat = .ready → priority.toNat < s.max) :
    Inv (s.changePriority t priority) := by
  unfold Sched.changePriority
  split
  · rename_i hready
    have ha := h.attr (t := t) (by simp [hready])
    have hout := h.ok.remove ha
    have hset := hout.setPriority (t := t) (fun hon => hon.2 rfl) priority.isLt
    refine ⟨(hset.insert (fun hon => hon.2 rfl) ?_ ?_).congr fun u => ?_, fun u hu => ?_⟩
    · rw [Sched.setPriority, Ok.setTcb_self]
      rfl
    · rw [Sched.setPriority, Ok.setTcb_self]
      exact (remove_max s t).symm ▸ hp hready
    · rw [insert_stat, setPriority_stat, remove_tcb]
      by_cases hut : u = t
      · simp [hut]
      · simp [hut]
    · rw [insert_stat, setPriority_stat, remove_tcb]
      split
      · exact fun he => by cases he
      · exact h.current u (remove_current s t ▸ hu)
  · rename_i hnot
    exact h.setPriority hnot priority.isLt

theorem rtThreadExit (h : Inv s) {t : Thread} (ht : s.current = some t) :
    Inv (s.rtThreadExit t) := by
  have ha := h.attr (h.current t ht)
  have ha' : ((s.rtScheduleRemoveThread t).tcb t).attr =
      prioAttr (s.rtScheduleRemoveThread t).max
        ((s.rtScheduleRemoveThread t).tcb t).currentPriority := by
    rwa [remove_tcb, remove_max]
  refine ⟨((h.ok.remove ha).setStat .close ha').congr fun u => ?_, fun u hu => ?_⟩
  · rw [Sched.rtThreadExit, setStat_stat, remove_tcb]
    by_cases hut : u = t
    · simp [hut]
    · simp [hut]
  · rw [Sched.rtThreadExit, setStat_stat, remove_tcb]
    split
    · exact fun he => by cases he
    · exact h.current u (remove_current s t ▸ hu)

/-- The current thread goes to the end of its list. -/
theorem yielded (h : Inv s) {t : Thread} (ht : (s.tcb t).stat = .ready) :
    Inv ((s.unlink t).append t) := by
  have hperm : ∀ p, (if p = (s.tcb t).currentPriority then (s.priorityTable p).erase t ++ [t]
      else (s.priorityTable p).erase t).Perm (s.priorityTable p) := by
    intro p
    split
    · rename_i hp
      have hmem := (h.ok.mem t p).mpr ⟨ht, hp⟩
      exact (List.perm_append_singleton t _).trans (List.perm_cons_erase hmem).symm
    · rename_i hp
      rw [List.erase_of_not_mem fun hmem => hp ((h.ok.mem t p).mp hmem).2]
  exact ⟨h.ok.reorder hperm, h.current⟩

omit [DecidableEq Thread] in
/-- The head of the list that is found is a ready thread of the least priority. -/
theorem toThread (h : Inv s) {u : Thread} (hu : (s.tcb u).stat = .ready) :
    ∃ t, s.toThread = some t ∧ (s.tcb t).stat = .ready ∧
      ∀ v, (s.tcb v).stat = .ready → (s.tcb t).currentPriority ≤ (s.tcb v).currentPriority := by
  have hfind : ∀ v, (s.tcb v).stat = .ready →
      s.ready.highest s.max ≤ (s.tcb v).currentPriority ∧
        s.priorityTable (s.ready.highest s.max) ≠ [] := by
    intro v hv
    have hmem := (h.ok.mem v _).mpr ⟨hv, rfl⟩
    have hne := List.ne_nil_of_mem hmem
    obtain ⟨hle, hset⟩ := h.ok.marks.highest h.ok.max (h.ok.legal v hv) (decide_eq_true hne)
    exact ⟨hle, of_decide_eq_true hset⟩
  obtain ⟨t, rest, hl⟩ := List.exists_cons_of_ne_nil (hfind u hu).2
  obtain ⟨ht, hp⟩ := (h.ok.mem t _).mp (hl ▸ List.mem_cons_self)
  refine ⟨t, ?_, ht, fun v hv => hp ▸ (hfind v hv).1⟩
  rw [Sched.toThread, hl]
  rfl

theorem rtSchedule (h : Inv s) : Inv s.rtSchedule := by
  unfold Sched.rtSchedule
  split
  · exact h
  · split
    · exact h
    · refine ⟨⟨h.ok.max, h.ok.prio, h.ok.legal, h.ok.attr, h.ok.mem, h.ok.nodup, h.ok.marks⟩,
        fun t ht => ?_⟩
      have hmem := List.mem_of_head? (ht : s.toThread = some t)
      have hready := ((h.ok.mem t _).mp hmem).1
      exact fun he => by rw [hready] at he; cases he

theorem before (h : Inv s) {e : Event Thread} (hgood : Good s e) {r : Sched Thread × Bool}
    (hr : Scheduler.before s e = some r) : Inv r.1 := by
  cases e with
  | startup t =>
    obtain ⟨ht, heq⟩ := Option.ite_none_right_eq_some.mp hr
    obtain rfl := Option.some.inj heq
    exact h.rtThreadStartup ht
  | suspend t =>
    obtain rfl := Option.some.inj hr
    exact h.rtThreadSuspend t
  | resume t =>
    obtain rfl := Option.some.inj hr
    exact h.rtThreadResume hgood
  | yield =>
    obtain ⟨t, -, rfl⟩ := Option.map_eq_some_iff.mp hr
    split
    · rename_i hy
      exact h.yielded hy.1
    · exact h
  | changePriority t priority =>
    obtain rfl := Option.some.inj hr
    exact h.changePriority t hgood
  | exit =>
    obtain ⟨t, ht, rfl⟩ := Option.map_eq_some_iff.mp hr
    exact h.rtThreadExit ht
  | schedule =>
    obtain rfl := Option.some.inj hr
    exact h

theorem step {s' : Sched Thread} (h : Inv s) {e : Event Thread} (hgood : Good s e)
    (hstep : Scheduler.step s e = some s') : Inv s' := by
  obtain ⟨r, hr, rfl⟩ := Option.map_eq_some_iff.mp hstep
  have hb := h.before hgood hr
  split
  · exact hb.rtSchedule
  · exact hb

omit [DecidableEq Thread] in
theorem bit (h : Inv s) {p : Nat} (hp : p < s.max) : s.Bit p ↔ s.priorityTable p ≠ [] := by
  have hmax := h.ok.max
  unfold Sched.Bit
  split
  · rename_i hwide
    have hbyte := h.ok.marks.wide hwide p (by omega)
    rw [hbyte, decide_eq_true_eq]
    refine ⟨And.right, fun hne => ⟨?_, hne⟩⟩
    refine (h.ok.marks.group hwide (p / 8) (by omega)).mpr (ne_zero_of_getLsbD (i := p % 8) ?_)
    rw [hbyte, decide_eq_true hne]
  · rename_i hnarrow
    rw [h.ok.marks.narrow (by omega) p (by omega), decide_eq_true_eq]

theorem toAgrees (h : Inv s) : Agrees s where
  bit _ hp := h.bit hp
  ready t ht := ⟨h.ok.legal t ht, by
    rw [(h.ok.nodup _).count, if_pos ((h.ok.mem t _).mpr ⟨ht, rfl⟩)]⟩
  only t p hmem := (h.ok.mem t p).mp hmem

/-- What is selected when `rt_schedule` is called in such a state. -/
theorem rtSchedule_current (h : Inv s) (hlock : s.lockNest = 0)
    (hready : ∃ t, (s.tcb t).stat = .ready) :
    ∃ t, s.rtSchedule.current = some t ∧ (s.tcb t).stat = .ready ∧
      ∀ u, (s.tcb u).stat = .ready → (s.tcb t).currentPriority ≤ (s.tcb u).currentPriority := by
  obtain ⟨u, hu⟩ := hready
  obtain ⟨t, ht, hspec⟩ := h.toThread hu
  refine ⟨t, ?_, hspec⟩
  unfold Sched.rtSchedule
  rw [if_neg (not_not_intro hlock)]
  split
  · rename_i heq
    exact heq.symm.trans ht
  · exact ht

theorem selects (h : Inv s) {e : Event Thread} (hgood : Good s e) : Selects s e :=
  fun _ hb hlock hready => (h.before hgood hb).rtSchedule_current hlock hready

end Inv

theorem Agrees.good {s s' : Sched Thread} {e : Event Thread} (h : Agrees s')
    (hstep : step s e = some s') : Good s e := by
  obtain ⟨r, hr, rfl⟩ := Option.map_eq_some_iff.mp hstep
  cases e with
  | changePriority t priority =>
    intro hready
    obtain rfl := Option.some.inj hr
    have heq : s.changePriority t priority =
        ((s.rtScheduleRemoveThread t).setPriority t priority.toNat).rtScheduleInsertThread t :=
      if_pos hready
    have hlt := (h.ready t (by simp [heq, insert_stat])).1
    have hprio : ((s.changePriority t priority).tcb t).currentPriority = priority.toNat := by
      rw [heq]
      change (((_ : Sched Thread).setStat t .ready).tcb t).currentPriority = _
      rw [Sched.setStat, Ok.setTcb_self, Sched.setPriority, Ok.setTcb_self]
    have hmax : (s.changePriority t priority).max = s.max := by
      rw [heq]
      exact remove_max s t
    rwa [← hmax, ← hprio]
  | resume t =>
    intro hsusp
    obtain rfl := Option.some.inj hr
    have heq : s.rtThreadResume t = (s.unlink t).rtScheduleInsertThread t :=
      if_neg (not_not_intro hsusp)
    have hlt := (h.ready t (by simp [heq, insert_stat])).1
    have hprio : ((s.rtThreadResume t).tcb t).currentPriority = (s.tcb t).currentPriority := by
      rw [heq]
      change (((s.unlink t).setStat t .ready).tcb t).currentPriority = _
      rw [Sched.setStat, Ok.setTcb_self]
      rfl
    have hmax : (s.rtThreadResume t).max = s.max := by
      rw [heq]
      rfl
    rwa [← hmax, ← hprio]
  | startup | suspend | yield | exit | schedule => trivial

omit [DecidableEq Thread] in
theorem inv_start {max : Nat} (hmax : max ≤ 256) (priority : Thread → Fin max)
    (lockNest : Int) : Inv (start priority lockNest) where
  ok := by
    refine ⟨hmax, fun t => ⟨(priority t).isLt.trans_le hmax, (priority t).isLt⟩,
      fun t ht => (by cases ht), fun _ => .inl rfl,
      fun t p => ?_, fun _ => .nil, marks_empty max⟩
    exact ⟨fun hmem => (by cases hmem), fun hon => (by cases hon.1)⟩
  current _ h := by cases h

/-! ## Whole runs -/

/-- Bitmap and lists agree in every state, and every call of `rt_schedule` selects rightly,
exactly if no thread is made ready with a priority that there is no list for. -/
theorem agrees_and_selects_iff {max : Nat} (hmax : max ≤ 256) (priority : Thread → Fin max)
    (lockNest : Int) (es : List (Event Thread)) :
    Throughout step Agrees (start priority lockNest) es ∧
        Along step Selects (start priority lockNest) es ↔
      Along step Good (start priority lockNest) es := by
  have hstart := inv_start hmax priority lockNest
  have hiff : Throughout step Agrees (start priority lockNest) es ↔
      Along step Good (start priority lockNest) es :=
    throughout_iff_along (J := Inv) (fun _ h => h.toAgrees) (fun _ _ _ h hg => h.step hg)
      (fun _ _ _ _ hstep h => h.good hstep) hstart es
  refine ⟨fun h => hiff.mp h.1, fun h => ⟨hiff.mpr h, ?_⟩⟩
  exact along_of_along (J := Inv) (fun _ _ _ h hg => h.step hg) (fun _ _ h hg => h.selects hg)
    hstart h

theorem agrees_and_selects_iff_32 :
    Throughout step Agrees (start (fun _ : Unit => (10 : Fin 32)) 0) [.startup (), .schedule] ∧
        Along step Selects (start (fun _ : Unit => (10 : Fin 32)) 0) [.startup (), .schedule] ↔
      Along step Good (start (fun _ : Unit => (10 : Fin 32)) 0) [.startup (), .schedule] :=
  agrees_and_selects_iff (by decide) _ 0 _

/-- With 32 priorities, a ready thread gets priority 253, the low byte of `-3`. -/
theorem priority_without_list :
    ¬ Throughout step Agrees (start (fun _ : Unit => (10 : Fin 32)) 0)
      [.startup (), .changePriority () 253] := by
  intro h
  have hrun : ∃ s, run step (start (fun _ : Unit => (10 : Fin 32)) 0)
      [.startup (), .changePriority () 253] = some s ∧ s.max = 32 ∧
      (s.tcb ()).stat = .ready ∧ (s.tcb ()).currentPriority = 253 := ⟨_, rfl, rfl, rfl, rfl⟩
  obtain ⟨s, hs, hmax, hready, hprio⟩ := hrun
  have := ((h.last hs).ready () hready).1
  rw [hprio, hmax] at this
  exact absurd this (by decide)

end ControlRTT.Kernel.Scheduler

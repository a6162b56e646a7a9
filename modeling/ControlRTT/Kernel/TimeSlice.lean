import ControlRTT.Lib.Turns
import ControlRTT.Kernel.Scheduler

/-! # Time slices

`rt_tick_increase` (clock.c) charges the current thread with each tick, and a thread that has used
up its slice gives way. Among the threads of one priority nobody overtakes: who waits for the
processor has before it only those that were before it when it began to wait, and they have no
more ticks than were left to them then (`turn_comes_within`). -/
namespace ControlRTT.Kernel.TimeSlice
open ControlRTT.Lib.Runs ControlRTT.Lib.Turns ControlRTT.Kernel.Scheduler

/-- The scheduler, and two fields of the threads. -/
structure Slices (Thread : Type) where
  sched : Sched Thread
  initTick : Thread → BitVec 32
  remainingTick : Thread → BitVec 32

inductive Event (Thread : Type) where
  | call (e : Scheduler.Event Thread)
  | tick

variable {Thread : Type} [DecidableEq Thread]

namespace Slices

def setRemaining (s : Slices Thread) (t : Thread) (ticks : BitVec 32) : Slices Thread :=
  { s with remainingTick := fun u => if u = t then ticks else s.remainingTick u }

/-- `rt_tick_increase`, but for the clock and its timers. -/
def rtTickIncrease (s : Slices Thread) : Option (Slices Thread) :=
  s.sched.current.bind fun thread =>
    let remaining := s.remainingTick thread - 1
    if remaining = 0 then
      (Scheduler.step s.sched .yield).map fun sched =>
        { s.setRemaining thread (s.initTick thread) with sched := sched }
    else some (s.setRemaining thread remaining)

end Slices

def step (s : Slices Thread) : Event Thread → Option (Slices Thread)
  | .call e => (Scheduler.step s.sched e).map fun sched => { s with sched := sched }
  | .tick => s.rtTickIncrease

/-- Every thread has its slice before it. -/
def start {max : Nat} (priority : Thread → Fin max) (lockNest : Int)
    (initTick : Thread → BitVec 32) : Slices Thread where
  sched := Scheduler.start priority lockNest
  initTick := initTick
  remainingTick := initTick

/-! ## Waiting -/

/-- The threads of the same priority that come first. -/
def before (s : Sched Thread) (t : Thread) : List Thread :=
  ahead t (s.priorityTable (s.tcb t).currentPriority)

/-- How many ticks it takes until a slice is used up. With 0 the count wraps around. -/
def ticksLeft (remaining : BitVec 32) : Nat := (remaining - 1).toNat + 1

/-- The ticks that the threads have that come first. -/
def ticksBefore (s : Slices Thread) (t : Thread) : Nat :=
  ((before s.sched t).map fun u => ticksLeft (s.remainingTick u)).sum

/-- A tick of a thread that comes first. -/
def Charged (t : Thread) (s : Slices Thread) : Event Thread → Prop
  | .call _ => False
  | .tick => ∃ u ∈ before s.sched t, s.sched.current = some u

/-- The call does not suspend the thread and leaves its priority as it is. -/
def Spares (t : Thread) : Scheduler.Event Thread → Prop
  | .suspend u => u ≠ t
  | .changePriority u _ => u ≠ t
  | _ => True

/-- The thread does not run, nobody suspends it and its priority is not changed. -/
def Waits (t : Thread) (s : Slices Thread) (e : Event Thread) : Prop :=
  s.sched.current ≠ some t ∧
    match e with
    | .call e => Spares t e
    | .tick => True

/-- No thread is ready with a priority that there is no list for. -/
def Good (s : Slices Thread) : Event Thread → Prop
  | .call e => Scheduler.Good s.sched e
  | .tick => True

/-- A thread of the same priority that is switched to came first in `s₀`, or it is `t`. -/
def InTurn (s₀ : Slices Thread) (t : Thread) (s : Slices Thread) (e : Event Thread) : Prop :=
  ∀ s', step s e = some s' → ∀ u, s'.sched.current = some u → s.sched.current ≠ some u →
    (s'.sched.tcb u).currentPriority = (s'.sched.tcb t).currentPriority →
      u = t ∨ u ∈ before s₀.sched t

instance (t : Thread) (s : Slices Thread) (e : Event Thread) : Decidable (Charged t s e) :=
  match e with
  | .call _ => inferInstanceAs (Decidable False)
  | .tick => inferInstanceAs (Decidable (∃ u ∈ before s.sched t, s.sched.current = some u))

/-! ## What a call does to a thread that waits -/

/-- A thread is as ready as before, with nobody before it on its list who was not. -/
structure Stands (t : Thread) (s s' : Sched Thread) : Prop where
  tcb : s'.tcb t = s.tcb t
  mem : t ∈ s.priorityTable (s.tcb t).currentPriority →
    t ∈ s'.priorityTable (s.tcb t).currentPriority
  ahead : t ∈ s.priorityTable (s.tcb t).currentPriority →
    (ahead t (s'.priorityTable (s.tcb t).currentPriority)).Sublist
      (ahead t (s.priorityTable (s.tcb t).currentPriority))

namespace Stands
variable {t u : Thread} {s s' s'' : Sched Thread}

theorem refl (s : Sched Thread) : Stands t s s := ⟨rfl, id, fun _ => List.Sublist.refl _⟩

theorem trans (h : Stands t s s') (h' : Stands t s' s'') : Stands t s s'' := by
  obtain ⟨htcb', hmem', hahead'⟩ := h'
  rw [h.tcb] at htcb' hmem' hahead'
  exact ⟨htcb', fun ht => hmem' (h.mem ht), fun ht => (hahead' (h.mem ht)).trans (h.ahead ht)⟩

/-- The lists stay as they are. -/
theorem of_lists (htcb : s'.tcb t = s.tcb t) (hlists : s'.priorityTable = s.priorityTable) :
    Stands t s s' := by
  refine ⟨htcb, fun ht => hlists ▸ ht, fun _ => ?_⟩
  rw [hlists]

theorem setTcb (hut : u ≠ t) (b : Tcb) : Stands t s (s.setTcb u b) :=
  of_lists (Ok.setTcb_ne s b (Ne.symm hut)) rfl

theorem unlink (hut : u ≠ t) : Stands t s (s.unlink u) where
  tcb := rfl
  mem ht := (List.mem_erase_of_ne (Ne.symm hut)).mpr ht
  ahead _ := ahead_erase_sublist hut _

theorem append (s : Sched Thread) (t u : Thread) : Stands t s (s.append u) := by
  refine ⟨rfl, fun ht => ?_, fun ht => ?_⟩
  · dsimp only [Sched.append]
    split
    · exact List.mem_append_left _ ht
    · exact ht
  · dsimp only [Sched.append]
    split
    · rw [ahead_append ht]
    · exact List.Sublist.refl _

theorem insert (hut : u ≠ t) : Stands t s (s.rtScheduleInsertThread u) :=
  ((setTcb hut _).trans (append _ t u)).trans (of_lists rfl rfl)

theorem remove (hut : u ≠ t) : Stands t s (s.rtScheduleRemoveThread u) := by
  unfold Sched.rtScheduleRemoveThread
  split
  · exact (unlink hut).trans (of_lists rfl rfl)
  · exact unlink hut

theorem rtSchedule (s : Sched Thread) (t : Thread) : Stands t s s.rtSchedule := by
  unfold Sched.rtSchedule
  split
  · exact refl s
  · split
    · exact refl s
    · exact of_lists rfl rfl

theorem rtThreadResume (hut : u ≠ t) : Stands t s (s.rtThreadResume u) := by
  unfold Sched.rtThreadResume
  split
  · exact refl s
  · exact (unlink hut).trans (insert hut)

/-- A call by another thread, or on another one. -/
theorem before (ht : (s.tcb t).stat = .ready) {e : Scheduler.Event Thread}
    (hcurrent : s.current ≠ some t) (hother : Spares t e) {r : Sched Thread × Bool}
    (hr : Scheduler.before s e = some r) : Stands t s r.1 := by
  cases e with
  | startup u =>
    obtain ⟨hinit, heq⟩ := Option.ite_none_right_eq_some.mp hr
    obtain rfl := Option.some.inj heq
    have hut : u ≠ t := by
      intro heq
      rw [heq, ht] at hinit
      cases hinit
    exact (setTcb hut _).trans ((setTcb hut _).trans (rtThreadResume hut))
  | suspend u =>
    obtain rfl := Option.some.inj hr
    unfold Sched.rtThreadSuspend
    split
    · exact refl s
    · exact (setTcb hother _).trans (remove hother)
  | resume u =>
    obtain rfl := Option.some.inj hr
    by_cases hut : u = t
    · rw [hut, Sched.rtThreadResume, if_pos (by rw [ht]; decide)]
      exact refl s
    · exact rtThreadResume hut
  | yield =>
    obtain ⟨u, hu, rfl⟩ := Option.map_eq_some_iff.mp hr
    have hut : u ≠ t := fun heq => hcurrent (heq ▸ hu)
    split
    · exact (unlink hut).trans (append _ t u)
    · exact refl s
  | changePriority u priority =>
    obtain rfl := Option.some.inj hr
    unfold Sched.changePriority
    split
    · exact (remove hother).trans ((setTcb hother _).trans (insert hother))
    · exact setTcb hother _
  | exit =>
    obtain ⟨u, hu, rfl⟩ := Option.map_eq_some_iff.mp hr
    have hut : u ≠ t := fun heq => hcurrent (heq ▸ hu)
    exact (remove hut).trans (setTcb hut _)
  | schedule =>
    obtain rfl := Option.some.inj hr
    exact refl s

end Stands

section
variable {t u : Thread} {s s' : Slices Thread} {e : Event Thread}

theorem call_stands (ht : (s.sched.tcb t).stat = .ready) {e : Scheduler.Event Thread}
    (hwaits : Waits t s (.call e)) {sched : Sched Thread}
    (hstep : Scheduler.step s.sched e = some sched) : Stands t s.sched sched := by
  obtain ⟨r, hr, rfl⟩ := Option.map_eq_some_iff.mp hstep
  have hbefore := Stands.before ht hwaits.1 hwaits.2 hr
  split
  · exact hbefore.trans (Stands.rtSchedule _ t)
  · exact hbefore

/-- A tick either leaves the scheduler alone, or the current thread gives way. -/
theorem tick_cases (hstep : step s .tick = some s') :
    ∃ c, s.sched.current = some c ∧
      ((s.remainingTick c - 1 ≠ 0 ∧ s' = s.setRemaining c (s.remainingTick c - 1)) ∨
        (s.remainingTick c - 1 = 0 ∧ ∃ sched, Scheduler.step s.sched .yield = some sched ∧
          s' = { s.setRemaining c (s.initTick c) with sched := sched })) := by
  obtain ⟨c, hc, htick⟩ := Option.bind_eq_some_iff.mp hstep
  refine ⟨c, hc, ?_⟩
  dsimp only at htick
  split at htick
  · rename_i hzero
    obtain ⟨sched, hyield, rfl⟩ := Option.map_eq_some_iff.mp htick
    exact .inr ⟨hzero, sched, hyield, rfl⟩
  · rename_i hleft
    exact .inl ⟨hleft, (Option.some.inj htick).symm⟩

theorem step_stands (ht : (s.sched.tcb t).stat = .ready) (hwaits : Waits t s e)
    (hstep : step s e = some s') : Stands t s.sched s'.sched := by
  cases e with
  | call e =>
    obtain ⟨sched, hsched, rfl⟩ := Option.map_eq_some_iff.mp hstep
    exact call_stands ht hwaits hsched
  | tick =>
    obtain ⟨c, -, ⟨-, rfl⟩ | ⟨-, sched, hyield, rfl⟩⟩ := tick_cases hstep
    · exact Stands.refl _
    · exact call_stands (s := s) ht (e := .yield) ⟨hwaits.1, True.intro⟩ hyield

theorem step_inv (h : Inv s.sched) (hgood : Good s e) (hstep : step s e = some s') :
    Inv s'.sched := by
  cases e with
  | call e =>
    obtain ⟨sched, hsched, rfl⟩ := Option.map_eq_some_iff.mp hstep
    exact h.step hgood hsched
  | tick =>
    obtain ⟨c, -, ⟨-, rfl⟩ | ⟨-, sched, hyield, rfl⟩⟩ := tick_cases hstep
    · exact h
    · exact h.step (e := .yield) True.intro hyield

/-! ## What a tick costs -/

theorem ticksLeft_pred {remaining : BitVec 32} (h : remaining - 1 ≠ 0) :
    ticksLeft (remaining - 1) + 1 = ticksLeft remaining := by
  unfold ticksLeft
  bv_omega

theorem ticksLeft_of_zero {remaining : BitVec 32} (h : remaining - 1 = 0) :
    ticksLeft remaining = 1 := by
  rw [ticksLeft, h]
  rfl

/-- The threads before one that waits, of which each is there once. -/
theorem before_nodup (h : Inv s.sched) (t : Thread) : (before s.sched t).Nodup :=
  (ahead_sublist t _).nodup (h.ok.nodup _)

theorem Inv.mem_before (h : Inv s.sched) (hu : u ∈ before s.sched t) :
    (s.sched.tcb u).stat = .ready ∧
      (s.sched.tcb t).currentPriority = (s.sched.tcb u).currentPriority :=
  (h.ok.mem u _).mp ((ahead_sublist t _).subset hu)

/-- Another count for a thread that is not in the list. -/
theorem sum_setRemaining {l : List Thread} (hu : u ∉ l) (s : Slices Thread) (ticks : BitVec 32) :
    (l.map fun v => ticksLeft ((s.setRemaining u ticks).remainingTick v)).sum =
      (l.map fun v => ticksLeft (s.remainingTick v)).sum := by
  refine congrArg List.sum (List.map_congr_left fun v hv => ?_)
  have hvu : v ≠ u := fun heq => hu (heq ▸ hv)
  exact congrArg ticksLeft (if_neg hvu)

/-- One tick less for a thread in the list. -/
theorem sum_setRemaining_pred {l : List Thread} (hnodup : l.Nodup) (hu : u ∈ l) (s : Slices Thread)
    (hleft : s.remainingTick u - 1 ≠ 0) :
    1 + (l.map fun v =>
        ticksLeft ((s.setRemaining u (s.remainingTick u - 1)).remainingTick v)).sum =
      (l.map fun v => ticksLeft (s.remainingTick v)).sum := by
  rw [← sum_erase _ hu, ← sum_erase (fun v => ticksLeft (s.remainingTick v)) hu,
    sum_setRemaining hnodup.not_mem_erase]
  have hpred := ticksLeft_pred hleft
  have hself : (s.setRemaining u (s.remainingTick u - 1)).remainingTick u =
      s.remainingTick u - 1 := if_pos rfl
  rw [hself]
  omega

/-- A thread before the one that waits has used up its slice. -/
theorem yield_before (h : Inv s.sched) (ht : (s.sched.tcb t).stat = .ready)
    (hu : u ∈ before s.sched t) (hcurrent : s.sched.current = some u) {sched : Sched Thread}
    (hyield : Scheduler.step s.sched .yield = some sched) :
    before sched t = (before s.sched t).erase u := by
  obtain ⟨hready, hprio⟩ := Inv.mem_before h hu
  have hmem : t ∈ s.sched.priorityTable (s.sched.tcb t).currentPriority :=
    (h.ok.mem t _).mpr ⟨ht, rfl⟩
  have hut : u ≠ t := ne_of_mem_ahead hu
  have hyields : s.sched.Yields u := by
    refine ⟨hready, fun hlist => ?_⟩
    rw [hprio, hlist, List.mem_singleton] at hmem
    exact hut hmem.symm
  have hbefore : Scheduler.before s.sched .yield = some ((s.sched.unlink u).append u, true) := by
    rw [Scheduler.before, hcurrent, Option.map_some, if_pos hyields]
  rw [Scheduler.step, hbefore] at hyield
  obtain rfl := Option.some.inj hyield
  have htables : ((s.sched.unlink u).append u).rtSchedule.priorityTable =
      ((s.sched.unlink u).append u).priorityTable := by
    unfold Sched.rtSchedule
    split
    · rfl
    · split <;> rfl
  have htcb : ((s.sched.unlink u).append u).rtSchedule.tcb = s.sched.tcb := by
    unfold Sched.rtSchedule
    split
    · rfl
    · split <;> rfl
  change before ((s.sched.unlink u).append u).rtSchedule t = _
  unfold TimeSlice.before
  rw [htables, htcb]
  dsimp only [Sched.append, Sched.unlink]
  rw [if_pos hprio, ahead_append ((List.mem_erase_of_ne (Ne.symm hut)).mpr hmem),
    ahead_erase hut]

/-- A tick of a thread that comes first is one of those that it had, and what happens besides
gives nobody more of them. -/
theorem ticksBefore_step (h : Inv s.sched) (ht : (s.sched.tcb t).stat = .ready)
    (hwaits : Waits t s e) (hstep : step s e = some s') :
    (if Charged t s e then 1 else 0) + ticksBefore s' t ≤ ticksBefore s t := by
  have hstands := step_stands ht hwaits hstep
  have hmem : t ∈ s.sched.priorityTable (s.sched.tcb t).currentPriority :=
    (h.ok.mem t _).mpr ⟨ht, rfl⟩
  have hsub : (before s'.sched t).Sublist (before s.sched t) := by
    rw [before, hstands.tcb]
    exact hstands.ahead hmem
  cases e with
  | call e =>
    obtain ⟨sched, hsched, rfl⟩ := Option.map_eq_some_iff.mp hstep
    rw [if_neg (show ¬ Charged t s (.call e) from id), Nat.zero_add]
    exact sum_sublist _ hsub
  | tick =>
    obtain ⟨c, hc, hcases⟩ := tick_cases hstep
    have hcharged : Charged t s .tick ↔ c ∈ before s.sched t := by
      constructor
      · intro ⟨u, hu, heq⟩
        rw [hc] at heq
        exact Option.some.inj heq ▸ hu
      · intro hmem
        exact ⟨c, hmem, hc⟩
    by_cases hcmem : c ∈ before s.sched t
    · rw [if_pos (hcharged.mpr hcmem)]
      obtain ⟨hleft, rfl⟩ | ⟨hzero, sched, hyield, rfl⟩ := hcases
      · exact (sum_setRemaining_pred (before_nodup h t) hcmem s hleft).le
      · have herase := yield_before h ht hcmem hc hyield
        unfold ticksBefore
        dsimp only
        rw [herase]
        have hsum := sum_erase (fun v => ticksLeft (s.remainingTick v)) hcmem
        rw [ticksLeft_of_zero hzero] at hsum
        exact ((congrArg (1 + ·) (sum_setRemaining (before_nodup h t).not_mem_erase s _)).trans
          hsum).le
    · rw [if_neg fun h => hcmem (hcharged.mp h), Nat.zero_add]
      obtain ⟨hleft, rfl⟩ | ⟨hzero, sched, hyield, rfl⟩ := hcases
      · exact (sum_setRemaining hcmem s _).le
      · refine Nat.le_trans (sum_setRemaining (fun hin => hcmem (hsub.subset hin)) s _).le ?_
        exact sum_sublist _ hsub

theorem rtThreadResume_current (s : Sched Thread) (u : Thread) :
    (s.rtThreadResume u).current = s.current := by
  unfold Sched.rtThreadResume
  split <;> rfl

/-- It is `rt_schedule` alone that switches. -/
theorem before_current {s : Sched Thread} {e : Scheduler.Event Thread} {r : Sched Thread × Bool}
    (hr : Scheduler.before s e = some r) : r.1.current = s.current := by
  cases e with
  | startup u =>
    obtain ⟨-, heq⟩ := Option.ite_none_right_eq_some.mp hr
    obtain rfl := Option.some.inj heq
    exact rtThreadResume_current _ u
  | suspend u =>
    obtain rfl := Option.some.inj hr
    unfold Sched.rtThreadSuspend
    split
    · rfl
    · exact remove_current _ u
  | resume u =>
    obtain rfl := Option.some.inj hr
    exact rtThreadResume_current s u
  | yield =>
    obtain ⟨u, -, rfl⟩ := Option.map_eq_some_iff.mp hr
    split <;> rfl
  | changePriority u priority =>
    obtain rfl := Option.some.inj hr
    unfold Sched.changePriority
    split
    · exact remove_current s u
    · rfl
  | exit =>
    obtain ⟨u, -, rfl⟩ := Option.map_eq_some_iff.mp hr
    exact remove_current s u
  | schedule =>
    obtain rfl := Option.some.inj hr
    rfl

theorem rtSchedule_head {s : Sched Thread} (h : Inv s)
    (hcurrent : s.rtSchedule.current = some u) (hnot : s.current ≠ some u) :
    (s.rtSchedule.priorityTable (s.rtSchedule.tcb u).currentPriority).head? = some u := by
  unfold Sched.rtSchedule at hcurrent ⊢
  split at hcurrent
  · exact absurd hcurrent hnot
  · split at hcurrent
    · exact absurd hcurrent hnot
    · rename_i hlock hother
      rw [if_neg hlock, if_neg hother]
      have hhead : (s.priorityTable (s.ready.highest s.max)).head? = some u := hcurrent
      have hprio := ((h.ok.mem u _).mp (List.mem_of_head? hhead)).2
      exact hprio ▸ hhead

theorem call_head {s sched : Sched Thread} (h : Inv s) {e : Scheduler.Event Thread}
    (hgood : Scheduler.Good s e) (hstep : Scheduler.step s e = some sched)
    (hcurrent : sched.current = some u) (hnot : s.current ≠ some u) :
    (sched.priorityTable (sched.tcb u).currentPriority).head? = some u := by
  obtain ⟨r, hr, rfl⟩ := Option.map_eq_some_iff.mp hstep
  rw [← before_current hr] at hnot
  split at hcurrent
  · rename_i hswitch
    rw [if_pos hswitch]
    exact rtSchedule_head (h.before hgood hr) hcurrent hnot
  · exact absurd hcurrent hnot

/-- Who is switched to is the first of its list. -/
theorem switched (h : Inv s.sched) (hgood : Good s e) (hstep : step s e = some s')
    (hcurrent : s'.sched.current = some u) (hnot : s.sched.current ≠ some u) :
    (s'.sched.priorityTable (s'.sched.tcb u).currentPriority).head? = some u := by
  cases e with
  | call e =>
    obtain ⟨sched, hsched, rfl⟩ := Option.map_eq_some_iff.mp hstep
    exact call_head h hgood hsched hcurrent hnot
  | tick =>
    obtain ⟨c, -, ⟨-, rfl⟩ | ⟨-, sched, hyield, rfl⟩⟩ := tick_cases hstep
    · exact absurd hcurrent hnot
    · exact call_head (e := .yield) h True.intro hyield hcurrent hnot

/-- A thread waits as it did in `s₀`, with nobody new before it. -/
structure Waiting (s₀ : Slices Thread) (t : Thread) (s : Slices Thread) : Prop where
  inv : Inv s.sched
  ready : (s.sched.tcb t).stat = .ready
  before : (before s.sched t).Sublist (before s₀.sched t)

theorem Waiting.step {s₀ : Slices Thread} (h : Waiting s₀ t s) (he : Good s e ∧ Waits t s e)
    (hstep : step s e = some s') : Waiting s₀ t s' := by
  have hstands := step_stands h.ready he.2 hstep
  refine ⟨step_inv h.inv he.1 hstep, by rw [hstands.tcb]; exact h.ready, ?_⟩
  rw [TimeSlice.before, hstands.tcb]
  exact (hstands.ahead ((h.inv.ok.mem t _).mpr ⟨h.ready, rfl⟩)).trans h.before

theorem Waiting.inTurn {s₀ : Slices Thread} (h : Waiting s₀ t s) (he : Good s e ∧ Waits t s e) :
    InTurn s₀ t s e := by
  intro s' hstep u hcurrent hnot hprio
  have h' := h.step he hstep
  have hhead := switched h.inv he.1 hstep hcurrent hnot
  rw [hprio] at hhead
  exact (eq_or_mem_ahead_of_head hhead).imp_right fun hu => h'.before.subset hu

end

/-! ## Whole runs -/

/-- While a thread waits for the processor, the threads of its priority that come first are those
that did so at the beginning or fewer, no other one of its priority is switched to, and they use
up no more ticks than were left to them. -/
theorem turn_comes_within {max : Nat} (hmax : max ≤ 256) (priority : Thread → Fin max)
    (lockNest : Int) (initTick : Thread → BitVec 32) {es es' : List (Event Thread)}
    {s s' : Slices Thread} {t : Thread}
    (hgood : Along step Good (start priority lockNest initTick) (es ++ es'))
    (hrun : run step (start priority lockNest initTick) es = some s)
    (ht : (s.sched.tcb t).stat = .ready) (hwaits : Along step (Waits t) s es')
    (hrun' : run step s es' = some s') :
    (before s'.sched t).Sublist (before s.sched t) ∧ Along step (InTurn s t) s es' ∧
      chargedAlong step (Charged t) s es' ≤ ticksBefore s t := by
  obtain ⟨hbefore, hafter⟩ := (along_append _ es es').mp hgood
  have hstart : Inv (start priority lockNest initTick).sched :=
    inv_start hmax priority lockNest
  have hinv : Inv s.sched :=
    (throughout_of_along (J := fun s => Inv s.sched) (I := fun s => Inv s.sched) (fun _ h => h)
      (fun _ _ _ h hg => step_inv h hg) hstart hbefore).last hrun
  have hboth := along_and (hafter s hrun) hwaits
  have hwaiting : Waiting s t s := ⟨hinv, ht, List.Sublist.refl _⟩
  refine ⟨?_, ?_, ?_⟩
  · exact (throughout_of_along (J := Waiting s t) (I := Waiting s t) (fun _ h => h)
      (fun _ _ _ h he => h.step he) hwaiting hboth).last hrun' |>.before
  · exact along_of_along (J := Waiting s t) (fun _ _ _ h he => h.step he)
      (fun _ _ h he => h.inTurn he) hwaiting hboth
  · exact chargedAlong_le (J := Waiting s t) (fun _ _ _ h he => h.step he)
      (fun _ _ _ h he => ticksBefore_step h.inv h.ready he.2) hwaiting hboth

/-- Two threads of priority 10 with two ticks each. -/
def twoThreads : Slices Bool := start (fun _ => (10 : Fin 32)) 0 fun _ => 2

/-- Both are started up, and the first one runs. -/
def bothReady : List (Event Bool) :=
  [.call (.startup false), .call (.startup true), .call .schedule]

/-- The second one comes to its turn with the second tick. -/
theorem turn_comes_within_two_ticks : ∃ s s' : Slices Bool,
    run step twoThreads bothReady = some s ∧ run step s [.tick, .tick] = some s' ∧
      s'.sched.current = some true ∧ ticksBefore s true = 2 ∧
        (before s'.sched true).Sublist (before s.sched true) ∧
          Along step (InTurn s true) s [.tick, .tick] ∧
            chargedAlong step (Charged true) s [.tick, .tick] ≤ ticksBefore s true := by
  have hgood : Along step Good twoThreads (bothReady ++ [.tick, .tick]) := by
    refine along_of_forall (fun e he s => ?_) _
    simp only [bothReady, List.cons_append, List.nil_append, List.mem_cons, List.not_mem_nil,
      or_false] at he
    obtain rfl | rfl | rfl | rfl | rfl := he <;> exact True.intro
  refine ⟨_, _, rfl, rfl, rfl, rfl, turn_comes_within (by decide) _ 0 _ hgood rfl rfl ?_ rfl⟩
  intro s₁ h₁
  obtain rfl := Option.some.inj h₁
  exact ⟨⟨nofun, True.intro⟩, fun s₂ _ => ⟨⟨nofun, True.intro⟩, True.intro⟩⟩

end ControlRTT.Kernel.TimeSlice

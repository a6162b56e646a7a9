import ControlRTT.Lib.Runs
import ControlRTT.Kernel.TimerClock

/-! # The timer thread (timer.c)

`rt_thread_timer_entry` looks at the first soft timer, reads the tick, and goes to sleep up to its
timeout tick, for ever if there is no timer, or checks the timers at once. Ticks, and other threads
with their timers, come between these steps. It takes `RT_TICK_MAX` for the answer that there is no
timer, and a delay of 0 ticks ends only with the next tick. Where nothing changes on its way to
sleep, it does the right thing exactly if the first timer expires neither at `RT_TICK_MAX` nor just
then (`prompt_throughout_iff`). -/
namespace ControlRTT.Kernel.TimerThread
open ControlRTT.Lib.CInt ControlRTT.Lib.Runs ControlRTT.Kernel.Timer

variable {Id : Type} [DecidableEq Id]

def rtTimerListNextTimeout (s : Timers Id) (kind : Kind) : Nat :=
  match (s.list kind).head? with
  | none => rtTickMax
  | some t => (s.timer t).timeoutTick

/-- Where the thread is: before it looks at the list, and before it reads the tick; before it
suspends itself, and suspended; before the critical section of `rt_thread_delay`, and asleep with
its own timer started; and before and in `rt_soft_timer_check`. -/
inductive Phase where
  | look
  | read (nextTimeout : Nat)
  | suspending
  | suspended
  | delaying (tick : Nat)
  | sleeping (timeoutTick : Nat)
  | processing
  | checking
  deriving DecidableEq, Repr

/-- The timers at a true time `now`, of which the tick is the low word, and the time at which each
expires. -/
structure System (Id : Type) where
  timers : Timers Id
  now : Nat
  expiry : Id → Nat := fun _ => 0
  phase : Phase := .look

/-- A step of the thread; a tick; and what others do with a timer. A start may have read the tick
before. What `rt_soft_timer_check` does are stops and starts. -/
inductive Event (Id : Type) where
  | go
  | tick
  | start (t : Id) (stamp : Nat)
  | stop (t : Id)
  | setTime (t : Id) (time : Nat)
  deriving DecidableEq

namespace System

/-- `rt_thread_timer_entry`; `none` while it is not ready. -/
def rtThreadTimerEntry (s : System Id) : Option (System Id) :=
  match s.phase with
  | .look =>
    let nextTimeout := rtTimerListNextTimeout s.timers .soft
    some { s with phase := if nextTimeout = rtTickMax then .suspending else .read nextTimeout }
  | .read nextTimeout =>
    let tick := usub nextTimeout (u32 s.now)
    some { s with phase := if tick < rtTickMax / 2 then .delaying tick else .processing }
  | .suspending => some { s with phase := .suspended }
  | .delaying tick => some { s with phase := .sleeping (u32 (u32 s.now + tick)) }
  | .processing => some { s with phase := .checking }
  | .checking => some { s with phase := .look }
  | .suspended => none
  | .sleeping _ => none

/-- The thread's own timer fires at the first tick that is not before its timeout tick. -/
def rtTickIncrease (s : System Id) : System Id :=
  { s with
    now := s.now + 1
    phase :=
      match s.phase with
      | .sleeping timeoutTick =>
        if usub (u32 (s.now + 1)) timeoutTick < rtTickMax / 2 then .checking
        else .sleeping timeoutTick
      | phase => phase }

/-- The end of `rt_timer_start`: a soft timer makes the thread ready. -/
def resume (phase : Phase) : Kind → Phase
  | .hard => phase
  | .soft =>
    match phase with
    | .suspended | .sleeping _ => .checking
    | phase => phase

def rtTimerStart (s : System Id) (t : Id) (stamp : Nat) : System Id :=
  { s with
    timers := s.timers.rtTimerStart (u32 stamp) t
    expiry := fun u => if u = t then stamp + (s.timers.timer t).initTick else s.expiry u
    phase := resume s.phase (s.timers.timer t).kind }

def step (s : System Id) : Event Id → Option (System Id)
  | .go => s.rtThreadTimerEntry
  | .tick => some s.rtTickIncrease
  | .start t stamp => if stamp ≤ s.now then some (s.rtTimerStart t stamp) else none
  | .stop t => some { s with timers := (s.timers.rtTimerStop t).1 }
  | .setTime t time => some { s with timers := s.timers.controlSetTime t time }

end System

/-! ## What is asked of the thread -/

/-- The soft timers expire in the order of the list, each less than half the tick range
ahead or behind. -/
structure Legal (s : Timers Id) (now : Nat) (expiry : Id → Nat) : Prop where
  ok : s.Ok
  stamp : ∀ t ∈ s.list .soft, (s.timer t).timeoutTick = u32 (expiry t)
  near : ∀ t ∈ s.list .soft, Near (expiry t) now ∧ Near now (expiry t)
  sorted : (s.list .soft).Pairwise fun t u => expiry t ≤ expiry u

/-- The thread is suspended for ever only without soft timers, it is asleep only before any of them
expires, and it goes to check them if the first has expired. -/
structure Prompt (s : System Id) : Prop where
  suspended : s.phase = .suspended → s.timers.list .soft = []
  sleeping : ∀ timeoutTick, s.phase = .sleeping timeoutTick →
    ∀ t ∈ s.timers.list .soft, s.now < s.expiry t
  processing : s.phase = .processing →
    ∃ first ∈ (s.timers.list .soft).head?, s.timers.Reached (u32 s.now) first

/-- The thread has looked, and is on its way. -/
def Phase.turning : Phase → Bool
  | .read _ | .suspending | .delaying _ | .processing => true
  | .look | .suspended | .sleeping _ | .checking => false

/-- The thread has read the tick, and is on its way. -/
def Phase.timed : Phase → Bool
  | .delaying _ | .processing => true
  | .look | .read _ | .suspending | .suspended | .sleeping _ | .checking => false

/-- Nobody starts or stops a soft timer while the thread is on its way, and no tick comes once it
has read it. -/
def Undisturbed (s : System Id) : Event Id → Prop
  | .go | .setTime _ _ => True
  | .tick => s.phase.timed = false
  | .start t _ | .stop t => (s.timers.timer t).kind = .soft → s.phase.turning = false

/-- A step of a run with legal timeouts, in which nothing changes under the thread. -/
def Proper (s : System Id) (e : Event Id) : Prop :=
  Legal s.timers s.now s.expiry ∧ Undisturbed s e

/-- The next step of the thread puts it to sleep. -/
def Phase.leaving : Phase → Bool
  | .suspending | .delaying _ => true
  | .look | .read _ | .suspended | .sleeping _ | .processing | .checking => false

/-- Where the thread goes to sleep, the first timer does not expire at `RT_TICK_MAX`, nor at this
tick. -/
def Clear (s : System Id) (e : Event Id) : Prop :=
  e = .go → s.phase.leaving = true → ∀ first ∈ (s.timers.list .soft).head?,
    (s.timers.timer first).timeoutTick ≠ rtTickMax ∧
      (s.timers.timer first).timeoutTick ≠ u32 s.now

instance (s : System Id) : DecidablePred (Undisturbed s)
  | .go | .setTime _ _ => inferInstanceAs (Decidable True)
  | .tick => inferInstanceAs (Decidable (_ = _))
  | .start _ _ | .stop _ => inferInstanceAs (Decidable (_ → _))

instance (s : System Id) (e : Event Id) : Decidable (Clear s e) :=
  inferInstanceAs (Decidable (_ → _))

/-! ## Lists of soft timers -/

/-- A soft timer that is being started, with its tick read. -/
def stamped (s : Timers Id) (now : Nat) (t : Id) : Timers Id :=
  (s.startDetach t).startStamp (u32 now) t

theorem stamped_self (s : Timers Id) (now : Nat) (t : Id) :
    (stamped s now t).timer t = { s.timer t with
      timeoutTick := u32 (u32 now + (s.timer t).initTick), activated := false } := by
  unfold stamped Timers.startStamp
  rw [Timers.setTimer_self, Timers.startDetach, Timers.setActivated_self]
  rfl

theorem stamped_ne (s : Timers Id) (now : Nat) {t u : Id} (h : u ≠ t) :
    (stamped s now t).timer u = s.timer u := by
  unfold stamped Timers.startStamp
  rw [Timers.setTimer_ne _ _ h, Timers.startDetach, Timers.setActivated_ne _ _ h]
  rfl

theorem u32_u32_add (a b : Nat) : u32 (u32 a + b) = u32 (a + b) := by
  simp only [u32]
  omega

/-- Lists become legal by starts: a start keeps the order while no timer of the list is
more than three ticks overdue. -/
theorem Legal.start {s : Timers Id} {now : Nat} {expiry : Id → Nat} (h : Legal s now expiry)
    {t : Id} (hkind : (s.timer t).kind = .soft) (hinit : (s.timer t).initTick < rtTickMax / 2)
    (hdue : ∀ u ∈ s.list .soft, now ≤ expiry u + 3) :
    Legal (s.rtTimerStart (u32 now) t) now
      (fun u => if u = t then now + (s.timer t).initTick else expiry u) := by
  have hok : (stamped s now t).Ok := h.ok.stamped (u32 now) t
  have hself := stamped_self s now t
  have hkind' : ((stamped s now t).timer t).kind = .soft := by rw [hself]; exact hkind
  have hlist : (stamped s now t).list .soft = (s.list .soft).erase t :=
    Timers.list_rtTimerRemove s t .soft
  have hnodup : (s.list .soft).Nodup := (h.ok.rows .soft).nodup_base
  have hold : ∀ u ∈ (stamped s now t).list .soft, u ≠ t ∧ u ∈ s.list .soft := fun u hu =>
    hnodup.mem_erase_iff.mp (hlist ▸ hu)
  have hmem : ∀ u, u ∈ (s.rtTimerStart (u32 now) t).list .soft → u = t ∨
      u ≠ t ∧ u ∈ s.list .soft := by
    intro u hu
    obtain ⟨rfl, -⟩ | hu := (hok.mem_list_startLink t .soft u).mp hu
    · exact .inl rfl
    · exact .inr (hold u hu)
  have hstamp : ((stamped s now t).timer t).timeoutTick = u32 (now + (s.timer t).initTick) := by
    rw [hself]
    exact u32_u32_add now _
  have hlater : ∀ u ∈ (stamped s now t).list .soft,
      ((stamped s now t).later t u = true ↔ now + (s.timer t).initTick < expiry u) := by
    intro u hu
    obtain ⟨hut, hin⟩ := hold u hu
    refine Timers.later_iff _ hstamp ?_ ?_
    · rw [stamped_ne s now hut]
      exact h.stamp u hin
    · obtain ⟨⟨hlo, -⟩, -⟩ := h.near u hin
      have := hdue u hin
      simp only [Near, rtTickMax] at *
      omega
  refine ⟨h.ok.rtTimerStart (u32 now) t, fun u hu => ?_, fun u hu => ?_, ?_⟩
  · obtain rfl | ⟨hut, hin⟩ := hmem u hu
    · rw [Timers.rtTimerStart_self, if_pos rfl]
      exact u32_u32_add now _
    · rw [Timers.rtTimerStart_ne _ _ hut, if_neg hut]
      exact h.stamp u hin
  · obtain rfl | ⟨hut, hin⟩ := hmem u hu
    · rw [if_pos rfl]
      simp only [Near, rtTickMax] at *
      omega
    · rw [if_neg hut]
      exact h.near u hin
  · have hlink := hok.pairwise_startLink (t := t)
      (R := fun u v => (if u = t then now + (s.timer t).initTick else expiry u) ≤
        if v = t then now + (s.timer t).initTick else expiry v)
    rw [hkind'] at hlink
    refine hlink ?_ (fun u hu hf => ?_) (fun u hu ht => ?_) fun u hu v hv hR ht => ?_
    · refine (hlist ▸ h.sorted.sublist List.erase_sublist).imp_of_mem fun {u v} hu hv huv => ?_
      rwa [if_neg (hold u (hlist ▸ hu)).1, if_neg (hold v (hlist ▸ hv)).1]
    · rw [if_neg (hold u hu).1, if_pos rfl]
      exact Nat.le_of_not_lt fun hlt => by simp [(hlater u hu).mpr hlt] at hf
    · rw [if_neg (hold u hu).1, if_pos rfl]
      exact ((hlater u hu).mp ht).le
    · rw [if_neg (hold u hu).1, if_neg (hold v hv).1] at hR
      exact (hlater v hv).mpr (((hlater u hu).mp ht).trans_le hR)

omit [DecidableEq Id] in
/-- Ticks keep a list legal until a timer is half the range overdue. -/
theorem Legal.tick {s : Timers Id} {now now' : Nat} {expiry : Id → Nat} (h : Legal s now expiry)
    (hle : now ≤ now') (hnear : ∀ t ∈ s.list .soft, now' < expiry t + rtTickMax / 2) :
    Legal s now' expiry := by
  refine ⟨h.ok, h.stamp, fun t ht => ?_, h.sorted⟩
  obtain ⟨⟨hlo, hhi⟩, hlo', hhi'⟩ := h.near t ht
  have hlate := hnear t ht
  simp only [Near, rtTickMax] at *
  omega

section
variable {s : Timers Id} {now : Nat} {expiry : Id → Nat} {first t : Id}

omit [DecidableEq Id] in
theorem nextTimeout_of_head {k : Kind} (h : (s.list k).head? = some t) :
    rtTimerListNextTimeout s k = (s.timer t).timeoutTick := by
  rw [rtTimerListNextTimeout, h]

omit [DecidableEq Id] in
theorem Legal.first_le (hl : Legal s now expiry) (h : (s.list .soft).head? = some first)
    (ht : t ∈ s.list .soft) : expiry first ≤ expiry t := by
  obtain ⟨rest, hrest⟩ := List.head?_eq_some_iff.mp h
  have hsorted := hl.sorted
  rw [hrest] at hsorted ht
  obtain rfl | ht := List.mem_cons.mp ht
  · exact le_rfl
  · exact (List.pairwise_cons.mp hsorted).1 t ht

omit [DecidableEq Id] in
/-- A hard timer is not in the list. -/
theorem Legal.hard_notMem (hl : Legal s now expiry) (hkind : (s.timer t).kind = .hard) :
    t ∉ s.list .soft := fun hmem => by
  have := hl.ok.kind .soft t hmem
  rw [hkind] at this
  cases this

end

/-! ## What the thread knows -/

/-- What the thread has seen is still so, and its own timer fires when the first timer expires. -/
def System.Inv (s : System Id) : Prop :=
  match s.phase with
  | .look | .checking => True
  | .read nextTimeout => ∃ first ∈ (s.timers.list .soft).head?,
      (s.timers.timer first).timeoutTick = nextTimeout ∧ nextTimeout ≠ rtTickMax
  | .suspending => ∀ first ∈ (s.timers.list .soft).head?,
      (s.timers.timer first).timeoutTick = rtTickMax
  | .suspended => s.timers.list .soft = []
  | .delaying tick => ∃ first ∈ (s.timers.list .soft).head?,
      (s.timers.timer first).timeoutTick ≠ rtTickMax ∧ s.now + tick = s.expiry first
  | .sleeping timeoutTick => ∃ wake, timeoutTick = u32 wake ∧ s.now < wake ∧
      Near wake s.now ∧ ∀ t ∈ s.timers.list .soft, wake ≤ s.expiry t
  | .processing => ∃ first ∈ (s.timers.list .soft).head?, s.timers.Reached (u32 s.now) first

namespace System
variable {s s' : System Id} {t : Id}

omit [DecidableEq Id] in
/-- What happens to other timers does not matter. -/
theorem Inv.congr (h : s.Inv) (hphase : s'.phase = s.phase) (hnow : s'.now = s.now)
    (hlist : s'.timers.list .soft = s.timers.list .soft)
    (hsame : ∀ u ∈ s.timers.list .soft,
      (s'.timers.timer u).timeoutTick = (s.timers.timer u).timeoutTick ∧
        s'.expiry u = s.expiry u) : s'.Inv := by
  have hhead : ∀ first ∈ (s.timers.list .soft).head?,
      (s'.timers.timer first).timeoutTick = (s.timers.timer first).timeoutTick ∧
        s'.expiry first = s.expiry first := fun first hfirst =>
    hsame first (List.mem_of_head? hfirst)
  unfold Inv at h ⊢
  rw [hphase, hlist, hnow]
  cases hs : s.phase with
  | look | checking => trivial
  | read nextTimeout =>
    rw [hs] at h
    obtain ⟨first, hfirst, heq, hne⟩ := h
    exact ⟨first, hfirst, (hhead first hfirst).1.trans heq, hne⟩
  | suspending =>
    rw [hs] at h
    exact fun first hfirst => (hhead first hfirst).1.trans (h first hfirst)
  | suspended =>
    rw [hs] at h
    exact h
  | delaying tick =>
    rw [hs] at h
    obtain ⟨first, hfirst, hne, heq⟩ := h
    obtain ⟨htick, hexpiry⟩ := hhead first hfirst
    exact ⟨first, hfirst, htick ▸ hne, hexpiry ▸ heq⟩
  | sleeping timeoutTick =>
    rw [hs] at h
    obtain ⟨wake, heq, hlt, hnear, hle⟩ := h
    exact ⟨wake, heq, hlt, hnear, fun u hu => (hsame u hu).2 ▸ hle u hu⟩
  | processing =>
    rw [hs] at h
    obtain ⟨first, hfirst, hreached⟩ := h
    refine ⟨first, hfirst, ?_⟩
    unfold Timers.Reached at hreached ⊢
    rw [(hhead first hfirst).1]
    exact hreached

omit [DecidableEq Id] in
/-- A step of the thread that goes to sleep only where it is right. -/
theorem Inv.rtThreadTimerEntry (h : s.Inv) (hl : Legal s.timers s.now s.expiry)
    (hclear : Clear s .go) (hstep : s.rtThreadTimerEntry = some s') : s'.Inv := by
  unfold Inv at h
  unfold System.rtThreadTimerEntry at hstep
  cases hs : s.phase with
  | look =>
    rw [hs] at hstep
    obtain rfl := Option.some.inj hstep
    cases hhead : (s.timers.list .soft).head? with
    | none =>
      rw [if_pos (by rw [rtTimerListNextTimeout, hhead])]
      unfold Inv
      dsimp only
      rw [hhead]
      exact fun first hfirst => (by cases hfirst)
    | some first =>
      rw [nextTimeout_of_head hhead]
      unfold Inv
      split_ifs with hmax
      · intro first' hfirst
        obtain rfl := Option.some.inj (hhead.symm.trans hfirst)
        exact hmax
      · exact ⟨first, hhead, rfl, hmax⟩
  | read nextTimeout =>
    rw [hs] at h hstep
    obtain rfl := Option.some.inj hstep
    obtain ⟨first, hfirst, rfl, hne⟩ := h
    have hmem := List.mem_of_head? hfirst
    have hstamp := hl.stamp first hmem
    obtain ⟨hnear, hnear'⟩ := hl.near first hmem
    by_cases hlt : usub (s.timers.timer first).timeoutTick (u32 s.now) < rtTickMax / 2
    · rw [if_pos hlt]
      rw [hstamp] at hlt
      have hle := (usub_lt_iff hnear).mp hlt
      have heq : s.now + usub (s.timers.timer first).timeoutTick (u32 s.now) = s.expiry first := by
        rw [hstamp, usub_of_near hnear hle]
        omega
      exact ⟨first, hfirst, hne, heq⟩
    · rw [if_neg hlt]
      rw [hstamp] at hlt
      have hle : s.expiry first ≤ s.now :=
        Nat.le_of_not_le fun hle => hlt ((usub_lt_iff hnear).mpr hle)
      have hreached := (s.timers.reached_iff hstamp hnear').mpr hle
      exact ⟨first, hfirst, hreached⟩
  | suspending =>
    rw [hs] at h hstep
    obtain rfl := Option.some.inj hstep
    change s.timers.list .soft = []
    refine List.head?_eq_none_iff.mp (Option.eq_none_iff_forall_ne_some.mpr fun first hfirst => ?_)
    exact (hclear rfl (hs ▸ rfl) first hfirst).1 (h first hfirst)
  | delaying tick =>
    rw [hs] at h hstep
    obtain rfl := Option.some.inj hstep
    obtain ⟨first, hfirst, hne, heq⟩ := h
    have hmem := List.mem_of_head? hfirst
    have hnear := (hl.near first hmem).1
    have hnow : s.now ≠ s.expiry first := fun hnow => by
      refine (hclear rfl (hs ▸ rfl) first hfirst).2 ?_
      rw [hl.stamp first hmem, hnow]
    have hwake : u32 (u32 s.now + tick) = u32 (s.expiry first) := by rw [u32_u32_add, heq]
    have hlt : s.now < s.expiry first := by omega
    exact ⟨s.expiry first, hwake, hlt, hnear, fun u hu => hl.first_le hfirst hu⟩
  | processing | checking =>
    rw [hs] at hstep
    obtain rfl := Option.some.inj hstep
    trivial
  | suspended | sleeping _ =>
    rw [hs] at hstep
    cases hstep

omit [DecidableEq Id] in
theorem rtTickIncrease_awake (hawake : ∀ timeoutTick, s.phase ≠ .sleeping timeoutTick) :
    s.rtTickIncrease = { s with now := s.now + 1 } := by
  unfold System.rtTickIncrease
  split
  · rename_i timeoutTick hs
    exact absurd hs (hawake timeoutTick)
  · rfl

omit [DecidableEq Id] in
theorem rtTickIncrease_sleeping {timeoutTick : Nat} (hs : s.phase = .sleeping timeoutTick) :
    s.rtTickIncrease = { s with
      now := s.now + 1
      phase :=
        if usub (u32 (s.now + 1)) timeoutTick < rtTickMax / 2 then .checking
        else .sleeping timeoutTick } := by
  unfold System.rtTickIncrease
  rw [hs]

omit [DecidableEq Id] in
theorem Inv.rtTickIncrease (h : s.Inv) (hphase : s.phase.timed = false) :
    s.rtTickIncrease.Inv := by
  cases hs : s.phase with
  | look | checking | read _ | suspending | suspended =>
    rw [rtTickIncrease_awake fun timeoutTick hsleeping => by rw [hs] at hsleeping; cases hsleeping]
    unfold Inv at h ⊢
    rw [hs] at h ⊢
    exact h
  | delaying _ | processing =>
    rw [hs] at hphase
    cases hphase
  | sleeping timeoutTick =>
    unfold Inv at h
    rw [hs] at h
    obtain ⟨wake, rfl, hlt, hnear, hle⟩ := h
    rw [rtTickIncrease_sleeping hs]
    by_cases hfires : usub (u32 (s.now + 1)) (u32 wake) < rtTickMax / 2
    · rw [if_pos hfires]
      trivial
    · rw [if_neg hfires]
      have hne : s.now + 1 ≠ wake := fun heq => hfires (by
        rw [heq]
        exact (usub_lt_iff ⟨by unfold rtTickMax; omega, by omega⟩).mpr (Nat.le_refl wake))
      have hlt' : s.now + 1 < wake := by omega
      have hnear' : Near wake (s.now + 1) := by
        obtain ⟨hlo, -⟩ := hnear
        exact ⟨by omega, by omega⟩
      exact ⟨wake, rfl, hlt', hnear', hle⟩

theorem Inv.rtTimerStart (h : s.Inv) (hl : Legal s.timers s.now s.expiry) {stamp : Nat}
    (hphase : (s.timers.timer t).kind = .soft → s.phase.turning = false) :
    (s.rtTimerStart t stamp).Inv := by
  cases hkind : (s.timers.timer t).kind with
  | hard =>
    have hnot := hl.hard_notMem hkind
    have hlist : (s.timers.rtTimerStart (u32 stamp) t).list .soft = s.timers.list .soft := by
      unfold Timers.rtTimerStart Timers.list
      rw [Timers.startLink_rows_ne]
      · exact (Timers.list_rtTimerRemove s.timers t .soft).trans (List.erase_of_not_mem hnot)
      · change Kind.soft ≠ ((stamped s.timers stamp t).timer t).kind
        rw [stamped_self, hkind]
        decide
    refine h.congr ?_ rfl hlist fun u hu => ?_
    · unfold System.rtTimerStart
      rw [hkind]
      rfl
    · have hne := ne_of_mem_of_not_mem hu hnot
      exact ⟨congrArg RtTimer.timeoutTick (Timers.rtTimerStart_ne _ _ hne), if_neg hne⟩
  | soft =>
    have hturning := hphase hkind
    unfold System.rtTimerStart Inv
    rw [hkind]
    cases hs : s.phase with
    | look | checking | suspended | sleeping _ => trivial
    | read _ | suspending | delaying _ | processing =>
      rw [hs] at hturning
      cases hturning

theorem Inv.rtTimerStop (h : s.Inv) (hl : Legal s.timers s.now s.expiry)
    (hphase : (s.timers.timer t).kind = .soft → s.phase.turning = false) :
    Inv { s with timers := (s.timers.rtTimerStop t).1 } := by
  unfold Timers.rtTimerStop
  split
  · exact h
  · have hlist : ((s.timers.rtTimerRemove t).setActivated t false).list .soft =
        (s.timers.list .soft).erase t := Timers.list_rtTimerRemove s.timers t .soft
    cases hkind : (s.timers.timer t).kind with
    | hard =>
      have hnot := hl.hard_notMem hkind
      refine h.congr rfl rfl (hlist.trans (List.erase_of_not_mem hnot)) fun u hu => ⟨?_, rfl⟩
      exact congrArg RtTimer.timeoutTick
        (Timers.setActivated_ne _ false (ne_of_mem_of_not_mem hu hnot))
    | soft =>
      have hturning := hphase hkind
      unfold Inv at h ⊢
      dsimp only
      cases hs : s.phase with
      | look | checking => trivial
      | suspended =>
        rw [hs] at h
        change _ = []
        rw [hlist, show s.timers.list .soft = [] from h]
        rfl
      | sleeping timeoutTick =>
        rw [hs] at h
        obtain ⟨wake, heq, hlt, hnear, hle⟩ := h
        refine ⟨wake, heq, hlt, hnear, fun u hu => hle u ?_⟩
        exact List.mem_of_mem_erase (hlist ▸ hu)
      | read _ | suspending | delaying _ | processing =>
        rw [hs] at hturning
        cases hturning

theorem Inv.controlSetTime (h : s.Inv) (t : Id) (time : Nat) :
    Inv { s with timers := s.timers.controlSetTime t time } := by
  refine h.congr rfl rfl rfl fun u _ => ⟨?_, rfl⟩
  unfold Timers.controlSetTime
  by_cases hut : u = t
  · subst hut
    rw [Timers.setTimer_self]
  · rw [Timers.setTimer_ne _ _ hut]

/-! ## Runs -/

theorem Inv.step (h : s.Inv) {e : Event Id} (hproper : Proper s e) (hclear : Clear s e)
    (hstep : s.step e = some s') : s'.Inv := by
  obtain ⟨hl, hundisturbed⟩ := hproper
  cases e with
  | go => exact h.rtThreadTimerEntry hl hclear hstep
  | tick =>
    obtain rfl := Option.some.inj hstep
    exact h.rtTickIncrease hundisturbed
  | start t stamp =>
    obtain ⟨-, hstart⟩ := Option.ite_none_right_eq_some.mp hstep
    obtain rfl := Option.some.inj hstart
    exact h.rtTimerStart hl hundisturbed
  | stop t =>
    obtain rfl := Option.some.inj hstep
    exact h.rtTimerStop hl hundisturbed
  | setTime t time =>
    obtain rfl := Option.some.inj hstep
    exact h.controlSetTime t time

/-- A step that puts the thread to sleep wrongly is seen at once. -/
theorem Inv.clear (h : s.Inv) {e : Event Id} (hl : Legal s.timers s.now s.expiry)
    (hstep : s.step e = some s') (hprompt : Prompt s') : Clear s e := by
  rintro rfl hleaving first hfirst
  have hmem := List.mem_of_head? hfirst
  unfold Inv at h
  unfold System.step System.rtThreadTimerEntry at hstep
  cases hs : s.phase with
  | suspending =>
    rw [hs] at hstep
    obtain rfl := Option.some.inj hstep
    have hnil : s.timers.list .soft = [] := hprompt.suspended rfl
    rw [hnil] at hfirst
    cases hfirst
  | delaying tick =>
    rw [hs] at h hstep
    obtain rfl := Option.some.inj hstep
    obtain ⟨first', hfirst', hne, -⟩ := h
    obtain rfl := Option.some.inj (hfirst.symm.trans hfirst')
    have hlt : s.now < s.expiry first := hprompt.sleeping _ rfl first hmem
    refine ⟨hne, fun heq => ?_⟩
    rw [hl.stamp first hmem] at heq
    have hzero : usub (u32 (s.expiry first)) (u32 s.now) = 0 := by
      rw [heq]
      simp only [usub, u32]
      omega
    have hnow := (usub_eq_zero_iff (hl.near first hmem).1).mp hzero
    omega
  | look | read _ | suspended | sleeping _ | processing | checking =>
    rw [hs] at hleaving
    cases hleaving

end System

end ControlRTT.Kernel.TimerThread

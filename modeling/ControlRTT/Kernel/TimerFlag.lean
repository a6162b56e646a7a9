import ControlRTT.Lib.Runs
import ControlRTT.Kernel.Timer

/-! # The activation flag of timers (timer.c)

Threads, interrupts and timeout functions start, stop and control timers in any order,
and `rt_timer_check` and `rt_soft_timer_check` fire them. While its timeout function
runs a timer is unlinked and keeps its flag, by which the loop sees whether the
function has stopped it. Otherwise the flag says whether the timer is linked, exactly
as long as no one-shot timer is linked when its timeout function returns
(`agrees_throughout_iff`): the loop then clears the flag of a timer that has been
started anew. -/
namespace ControlRTT.Kernel.TimerFlag
open ControlRTT.Lib.CInt ControlRTT.Lib.Runs ControlRTT.Kernel.Timer

/-- Where `rt_soft_timer_check` is, with the node it goes on from; `none` is the list. -/
inductive SoftCheck (Id : Type) where
  | out
  | loop (n : Option Id) (currentTick : Nat)
  | callback (t : Id) (n : Option Id)
  deriving DecidableEq

structure System (Id : Type) where
  timers : Timers Id
  tick : Nat
  hard : Check Id := .out
  soft : SoftCheck Id := .out

variable {Id : Type} [DecidableEq Id]

inductive Event (Id : Type) where
  | tick
  | start (t : Id)
  | stop (t : Id)
  | setTime (t : Id) (time : Nat)
  | setPeriodic (t : Id) (periodic : Bool)
  | enterHard
  | fireHard
  | returnHard
  | leaveHard
  | enterSoft
  | fireSoft
  | returnSoft
  | leaveSoft

namespace System

/-- An operation on timers, from a thread, an interrupt or a timeout function: the loop
of `rt_timer_check` is not interrupted, but the functions it calls may do anything. -/
def call (s : System Id) (f : Timers Id → Timers Id) : Option (System Id) :=
  match s.hard with
  | .loop _ => none
  | _ => some { s with timers := f s.timers }

/-- One turn of the loop of `rt_timer_check` up to the call of the timeout function. -/
def fireHard (s : System Id) (currentTick : Nat) : Option (System Id) :=
  (s.timers.list .hard).head?.bind fun t =>
    if s.timers.Reached currentTick t then
      some { s with timers := s.timers.rtTimerRemove t, hard := .callback t }
    else none

/-- The loop of `rt_timer_check` ends. -/
def leaveHard (s : System Id) (currentTick : Nat) : Option (System Id) :=
  if ∀ t ∈ (s.timers.list .hard).head?, ¬ s.timers.Reached currentTick t then
    some { s with hard := .out }
  else none

/-- One turn of the loop of `rt_soft_timer_check` up to the call of the timeout
function. -/
def fireSoft (s : System Id) (n : Option Id) (currentTick : Nat) : Option (System Id) :=
  n.bind fun t =>
    if s.timers.Reached currentTick t then
      some { s with
        timers := s.timers.rtTimerRemove t
        soft := .callback t (s.timers.softNext t) }
    else none

/-- The loop of `rt_soft_timer_check` ends. -/
def leaveSoft (s : System Id) (n : Option Id) (currentTick : Nat) : Option (System Id) :=
  if ∀ t ∈ n, ¬ s.timers.Reached currentTick t then some { s with soft := .out } else none

end System

/-- `rt_timer_check` runs in the tick interrupt, `rt_soft_timer_check` in a thread. -/
def step (s : System Id) : Event Id → Option (System Id)
  | .tick => if s.hard = .out then some { s with tick := u32 (s.tick + 1) } else none
  | .start t => s.call fun timers => timers.rtTimerStart s.tick t
  | .stop t => s.call fun timers => (timers.rtTimerStop t).1
  | .setTime t time => s.call fun timers => timers.controlSetTime t time
  | .setPeriodic t periodic => s.call fun timers => timers.controlSetPeriodic t periodic
  | .enterHard => if s.hard = .out then some { s with hard := .loop s.tick } else none
  | .fireHard => match s.hard with
    | .loop currentTick => s.fireHard currentTick
    | _ => none
  | .returnHard => match s.hard with
    | .callback t =>
      some { s with timers := s.timers.afterTimeout s.tick t, hard := .loop s.tick }
    | _ => none
  | .leaveHard => match s.hard with
    | .loop currentTick => s.leaveHard currentTick
    | _ => none
  | .enterSoft =>
    if s.hard = .out ∧ s.soft = .out then
      some { s with soft := .loop (s.timers.list .soft).head? s.tick }
    else none
  | .fireSoft => match s.hard, s.soft with
    | .out, .loop n currentTick => s.fireSoft n currentTick
    | _, _ => none
  | .returnSoft => match s.hard, s.soft with
    | .out, .callback t n =>
      some { s with timers := s.timers.afterTimeout s.tick t, soft := .loop n s.tick }
    | _, _ => none
  | .leaveSoft => match s.hard, s.soft with
    | .out, .loop n currentTick => s.leaveSoft n currentTick
    | _, _ => none

def start (above mask : Nat) (timer : Id → RtTimer) (tick : Nat) : System Id where
  timers := rtTimerInit above mask timer
  tick := u32 tick

/-- The timeout function of the timer runs. -/
def System.Firing (s : System Id) (t : Id) : Prop :=
  s.hard = .callback t ∨ ∃ n, s.soft = .callback t n

/-- The flag says whether the timer is linked, and so a stop takes it out. -/
structure Agrees (s : System Id) : Prop where
  flag : ∀ t, ¬ s.Firing t → ((s.timers.timer t).activated = true ↔ s.timers.Linked t)
  stop : ∀ t, s.timers.Linked t → ¬ (s.timers.rtTimerStop t).1.Linked t

/-- A one-shot timer is not linked when its timeout function returns. -/
def ReturnsUnlinked (s : System Id) (t : Id) : Prop :=
  (s.timers.timer t).periodic = false → ¬ s.timers.Linked t

def Good (s : System Id) : Event Id → Prop
  | .returnHard => ∀ t, s.hard = .callback t → ReturnsUnlinked s t
  | .returnSoft => ∀ t n, s.soft = .callback t n → ReturnsUnlinked s t
  | _ => True

/-! ## The timers, with those whose timeout functions run -/

structure Flags (firing : Id → Prop) (timers : Timers Id) : Prop where
  ok : timers.Ok
  active : ∀ t, timers.Linked t → (timers.timer t).activated = true
  linked : ∀ t, ¬ firing t → (timers.timer t).activated = true → timers.Linked t

namespace Flags
variable {firing firing' : Id → Prop} {s : Timers Id}

/-- Only an activated timer is taken out by a stop. -/
theorem agrees (h : Flags firing s) (t : Id) (ht : s.Linked t) :
    ¬ (s.rtTimerStop t).1.Linked t := by
  unfold Timers.rtTimerStop
  rw [if_neg (by simp [h.active t ht]), Timers.linked_setActivated, h.ok.linked_rtTimerRemove]
  exact fun hl => hl.1 rfl

theorem rtTimerStart (h : Flags firing s) (tick : Nat) (t : Id) :
    Flags firing (s.rtTimerStart tick t) where
  ok := h.ok.rtTimerStart tick t
  active u hu := by
    by_cases hut : u = t
    · subst hut
      rw [Timers.rtTimerStart_self]
    · rw [Timers.rtTimerStart_ne s tick hut]
      exact h.active u (((h.ok.linked_rtTimerStart tick t u).mp hu).resolve_left hut)
  linked u hu hact := by
    rw [h.ok.linked_rtTimerStart]
    by_cases hut : u = t
    · exact .inl hut
    · rw [Timers.rtTimerStart_ne s tick hut] at hact
      exact .inr (h.linked u hu hact)

/-- The timer is taken out and its flag cleared. -/
theorem cleared (h : Flags firing s) (t : Id) :
    Flags firing ((s.rtTimerRemove t).setActivated t false) where
  ok := (h.ok.rtTimerRemove t).setActivated t false
  active u hu := by
    rw [Timers.linked_setActivated, h.ok.linked_rtTimerRemove] at hu
    rw [Timers.setActivated_ne _ _ hu.1]
    exact h.active u hu.2
  linked u hu hact := by
    by_cases hut : u = t
    · subst hut
      simp at hact
    · rw [Timers.setActivated_ne _ _ hut] at hact
      rw [Timers.linked_setActivated, h.ok.linked_rtTimerRemove]
      exact ⟨hut, h.linked u hu hact⟩

theorem rtTimerStop (h : Flags firing s) (t : Id) : Flags firing (s.rtTimerStop t).1 := by
  unfold Timers.rtTimerStop
  split
  · exact h
  · exact h.cleared t

/-- Changes of a timer that leave its flags. -/
theorem setTimer (h : Flags firing s) {t : Id} {b : RtTimer} (hkind : b.kind = (s.timer t).kind)
    (hact : b.activated = (s.timer t).activated) : Flags firing (s.setTimer t b) := by
  have hflag : ∀ u, ((s.setTimer t b).timer u).activated = (s.timer u).activated := by
    intro u
    by_cases hut : u = t
    · subst hut
      rw [Timers.setTimer_self, hact]
    · rw [Timers.setTimer_ne s b hut]
  refine ⟨h.ok.setTimer hkind, fun u hu => ?_, fun u hu hu' => ?_⟩
  · rw [hflag]
    exact h.active u ((Timers.linked_setTimer s hkind u).mp hu)
  · rw [hflag] at hu'
    exact (Timers.linked_setTimer s hkind u).mpr (h.linked u hu hu')

/-- A timer is taken out to be fired. -/
theorem fire (h : Flags firing s) {t : Id} (ht : firing' t)
    (hother : ∀ u, firing u → firing' u) : Flags firing' (s.rtTimerRemove t) where
  ok := h.ok.rtTimerRemove t
  active u hu := h.active u ((h.ok.linked_rtTimerRemove t u).mp hu).2
  linked u hu hact := by
    refine (h.ok.linked_rtTimerRemove t u).mpr ⟨fun hut => hu (hut ▸ ht), ?_⟩
    exact h.linked u (fun hf => hu (hother u hf)) hact

/-- The flag of a timer that is not linked is cleared. -/
theorem settled (h : Flags firing s) {t : Id} (ht : ¬ s.Linked t)
    (hother : ∀ u, u ≠ t → firing u → firing' u) : Flags firing' (s.setActivated t false) where
  ok := h.ok.setActivated t false
  active u hu := by
    rw [Timers.linked_setActivated] at hu
    have hut : u ≠ t := fun heq => ht (heq ▸ hu)
    rw [Timers.setActivated_ne _ _ hut]
    exact h.active u hu
  linked u hu hact := by
    by_cases hut : u = t
    · subst hut
      simp at hact
    · rw [Timers.setActivated_ne _ _ hut] at hact
      rw [Timers.linked_setActivated]
      exact h.linked u (fun hf => hu (hother u hut hf)) hact

/-- A started timer that is not being fired any more. -/
theorem restarted (h : Flags firing s) (tick : Nat) {t : Id}
    (hother : ∀ u, u ≠ t → firing u → firing' u) :
    Flags firing' ((s.setActivated t false).rtTimerStart tick t) := by
  have hok := h.ok.setActivated t false
  refine ⟨hok.rtTimerStart tick t, fun u hu => ?_, fun u hu hact => ?_⟩
  · by_cases hut : u = t
    · subst hut
      rw [Timers.rtTimerStart_self]
    · have hl := ((hok.linked_rtTimerStart tick t u).mp hu).resolve_left hut
      rw [Timers.rtTimerStart_ne _ tick hut, Timers.setActivated_ne _ _ hut]
      exact h.active u ((Timers.linked_setActivated s t false u).mp hl)
  · rw [hok.linked_rtTimerStart, Timers.linked_setActivated]
    by_cases hut : u = t
    · exact .inl hut
    · rw [Timers.rtTimerStart_ne _ tick hut, Timers.setActivated_ne _ _ hut] at hact
      exact .inr (h.linked u (fun hf => hu (hother u hut hf)) hact)

theorem afterTimeout (h : Flags firing s) (tick : Nat) {t : Id}
    (ht : (s.timer t).periodic = false → ¬ s.Linked t)
    (hother : ∀ u, u ≠ t → firing u → firing' u) : Flags firing' (s.afterTimeout tick t) := by
  unfold Timers.afterTimeout
  split
  · exact h.restarted tick hother
  · rename_i hnot
    refine h.settled (fun hl => ?_) hother
    -- a linked timer is activated, so it is not periodic
    have hact := h.active t hl
    cases hp : (s.timer t).periodic with
    | true => exact hnot ⟨hp, hact⟩
    | false => exact ht hp hl

end Flags

/-! ## The steps -/

omit [DecidableEq Id] in
theorem call_eq {s s' : System Id} {f : Timers Id → Timers Id} (h : s.call f = some s') :
    s' = { s with timers := f s.timers } := by
  unfold System.call at h
  cases hh : s.hard with
  | out | callback => simp_all
  | loop => simp [hh] at h

theorem fireHard_eq {s s' : System Id} {currentTick : Nat}
    (h : s.fireHard currentTick = some s') :
    ∃ t, s' = { s with timers := s.timers.rtTimerRemove t, hard := .callback t } := by
  obtain ⟨t, -, h⟩ := Option.bind_eq_some_iff.mp h
  obtain ⟨-, h⟩ := Option.ite_none_right_eq_some.mp h
  exact ⟨t, (Option.some.inj h).symm⟩

theorem fireSoft_eq {s s' : System Id} {n : Option Id} {currentTick : Nat}
    (h : s.fireSoft n currentTick = some s') :
    ∃ t m, s' = { s with timers := s.timers.rtTimerRemove t, soft := .callback t m } := by
  obtain ⟨t, -, h⟩ := Option.bind_eq_some_iff.mp h
  obtain ⟨-, h⟩ := Option.ite_none_right_eq_some.mp h
  exact ⟨t, _, (Option.some.inj h).symm⟩

theorem step_returnHard {s s' : System Id} (h : step s .returnHard = some s') :
    ∃ t, s.hard = .callback t ∧
      s' = { s with timers := s.timers.afterTimeout s.tick t, hard := .loop s.tick } := by
  cases hh : s.hard with
  | out | loop => simp [step, hh] at h
  | callback t => exact ⟨t, rfl, by simpa [step, hh] using h.symm⟩

theorem step_returnSoft {s s' : System Id} (h : step s .returnSoft = some s') :
    s.hard = .out ∧ ∃ t n, s.soft = .callback t n ∧
      s' = { s with timers := s.timers.afterTimeout s.tick t, soft := .loop n s.tick } := by
  cases hh : s.hard with
  | loop | callback => simp [step, hh] at h
  | out =>
    cases hs : s.soft with
    | out | loop => simp [step, hh, hs] at h
    | callback t n => exact ⟨rfl, t, n, rfl, by simpa [step, hh, hs] using h.symm⟩

def Inv (s : System Id) : Prop := Flags s.Firing s.timers

theorem Inv.toAgrees {s : System Id} (h : Inv s) : Agrees s where
  flag t ht := ⟨h.linked t ht, h.active t⟩
  stop := h.agrees

omit [DecidableEq Id] in
/-- The loops come and go without the timers. -/
theorem Flags.mono {firing firing' : Id → Prop} {timers : Timers Id}
    (h : Flags firing timers) (hother : ∀ u, firing u → firing' u) : Flags firing' timers where
  ok := h.ok
  active := h.active
  linked u hu := h.linked u fun hf => hu (hother u hf)

theorem Inv.step {s s' : System Id} {e : Event Id} (h : Inv s) (hgood : Good s e)
    (hstep : step s e = some s') : Inv s' := by
  cases e with
  | tick =>
    obtain ⟨-, heq⟩ := Option.ite_none_right_eq_some.mp hstep
    obtain rfl := Option.some.inj heq
    exact h
  | start t =>
    obtain rfl := call_eq (f := fun timers => timers.rtTimerStart s.tick t) hstep
    exact Flags.rtTimerStart h s.tick t
  | stop t =>
    obtain rfl := call_eq (f := fun timers => (timers.rtTimerStop t).1) hstep
    exact Flags.rtTimerStop h t
  | setTime t time =>
    obtain rfl := call_eq (f := fun timers => timers.controlSetTime t time) hstep
    exact Flags.setTimer h rfl rfl
  | setPeriodic t periodic =>
    obtain rfl := call_eq (f := fun timers => timers.controlSetPeriodic t periodic) hstep
    exact Flags.setTimer h rfl rfl
  | enterHard =>
    obtain ⟨hout, heq⟩ := Option.ite_none_right_eq_some.mp hstep
    obtain rfl := Option.some.inj heq
    refine Flags.mono h fun u hu => .inr (hu.resolve_left ?_)
    simp [hout]
  | fireHard =>
    cases hh : s.hard with
    | out | callback => simp [TimerFlag.step, hh] at hstep
    | loop currentTick =>
      simp only [TimerFlag.step, hh] at hstep
      obtain ⟨t, rfl⟩ := fireHard_eq hstep
      exact Flags.fire h (.inl rfl) fun u hu => .inr (hu.resolve_left (by simp [hh]))
  | returnHard =>
    obtain ⟨t, hh, rfl⟩ := step_returnHard hstep
    refine Flags.afterTimeout h s.tick (hgood t hh) fun u hut hu => .inr (hu.resolve_left ?_)
    simp [hh, Ne.symm hut]
  | leaveHard =>
    cases hh : s.hard with
    | out | callback => simp [TimerFlag.step, hh] at hstep
    | loop currentTick =>
      simp only [TimerFlag.step, hh] at hstep
      obtain ⟨-, heq⟩ := Option.ite_none_right_eq_some.mp hstep
      obtain rfl := Option.some.inj heq
      exact Flags.mono h fun u hu => .inr (hu.resolve_left (by simp [hh]))
  | enterSoft =>
    obtain ⟨⟨hh, hs⟩, heq⟩ := Option.ite_none_right_eq_some.mp hstep
    obtain rfl := Option.some.inj heq
    exact Flags.mono h fun u hu => .inl (hu.resolve_right (by simp [hs]))
  | fireSoft =>
    cases hh : s.hard with
    | loop | callback => simp [TimerFlag.step, hh] at hstep
    | out =>
      cases hs : s.soft with
      | out | callback => simp [TimerFlag.step, hh, hs] at hstep
      | loop n currentTick =>
        simp only [TimerFlag.step, hh, hs] at hstep
        obtain ⟨t, m, rfl⟩ := fireSoft_eq hstep
        exact Flags.fire h (.inr ⟨m, rfl⟩) fun u hu => .inl (hu.resolve_right (by simp [hs]))
  | returnSoft =>
    obtain ⟨-, t, n, hs, rfl⟩ := step_returnSoft hstep
    refine Flags.afterTimeout h s.tick (hgood t n hs) fun u hut hu =>
      .inl (hu.resolve_right ?_)
    rintro ⟨m, hm⟩
    rw [hs] at hm
    exact hut (SoftCheck.callback.inj hm).1.symm
  | leaveSoft =>
    cases hh : s.hard with
    | loop | callback => simp [TimerFlag.step, hh] at hstep
    | out =>
      cases hs : s.soft with
      | out | callback => simp [TimerFlag.step, hh, hs] at hstep
      | loop n currentTick =>
        simp only [TimerFlag.step, hh, hs] at hstep
        obtain ⟨-, heq⟩ := Option.ite_none_right_eq_some.mp hstep
        obtain rfl := Option.some.inj heq
        exact Flags.mono h fun u hu => .inl (hu.resolve_right (by simp [hs]))

/-- A linked one-shot timer whose timeout function has returned cannot be stopped. -/
theorem linked_after_oneShot {s : Timers Id} {t : Id} (tick : Nat)
    (hone : (s.timer t).periodic = false) (ht : s.Linked t) :
    (s.afterTimeout tick t).Linked t ∧
      ((s.afterTimeout tick t).rtTimerStop t).1 = s.afterTimeout tick t := by
  have heq : s.afterTimeout tick t = s.setActivated t false := by
    unfold Timers.afterTimeout
    rw [if_neg (by simp [hone])]
  rw [heq]
  refine ⟨(Timers.linked_setActivated s t false t).mpr ht, ?_⟩
  unfold Timers.rtTimerStop
  rw [if_pos (by simp)]

theorem Agrees.good {s s' : System Id} {e : Event Id} (h : Agrees s')
    (hstep : step s e = some s') : Good s e := by
  cases e with
  | returnHard =>
    intro t hh hone hl
    obtain ⟨t', hh', rfl⟩ := step_returnHard hstep
    obtain rfl := Check.callback.inj (hh.symm.trans hh')
    obtain ⟨hlinked, hstop⟩ := linked_after_oneShot s.tick hone hl
    exact h.stop t hlinked (by rwa [hstop])
  | returnSoft =>
    intro t n hs hone hl
    obtain ⟨-, t', n', hs', rfl⟩ := step_returnSoft hstep
    obtain ⟨rfl, rfl⟩ := SoftCheck.callback.inj (hs.symm.trans hs')
    obtain ⟨hlinked, hstop⟩ := linked_after_oneShot s.tick hone hl
    exact h.stop t hlinked (by rwa [hstop])
  | tick | start | stop | setTime | setPeriodic | enterHard | fireHard | leaveHard
  | enterSoft | fireSoft | leaveSoft => trivial

omit [DecidableEq Id] in
theorem inv_start (above mask : Nat) (timer : Id → RtTimer) (tick : Nat) :
    Inv (start above mask timer tick) where
  ok := Timers.ok_rtTimerInit above mask timer
  active t ht := by
    rw [Timers.Linked, start, Timers.list_rtTimerInit] at ht
    cases ht
  linked t _ hact := by cases hact

/-! ## Whole runs -/

/-- The flag agrees with the lists throughout exactly the runs in which no one-shot timer
is linked when its timeout function returns. -/
theorem agrees_throughout_iff (above mask : Nat) (timer : Id → RtTimer) (tick : Nat)
    (es : List (Event Id)) :
    Throughout step Agrees (start above mask timer tick) es ↔
      Along step Good (start above mask timer tick) es :=
  throughout_iff_along (J := Inv) (fun _ h => h.toAgrees) (fun _ _ _ h hgood => h.step hgood)
    (fun _ _ _ _ hstep h => h.good hstep) (inv_start above mask timer tick) es

/-- A one-shot timer starts itself from its timeout function. -/
theorem restarted_oneShot_is_not_activated :
    ¬ Throughout step Agrees (start 0 3 (fun _ : Unit => { initTick := 1 }) 0)
      [.start (), .tick, .enterHard, .fireHard, .start (), .returnHard] := by
  intro h
  have hrun : ∃ s, run step (start 0 3 (fun _ : Unit => { initTick := 1 }) 0)
      [.start (), .tick, .enterHard, .fireHard, .start (), .returnHard] = some s ∧
      s.hard = .loop 1 ∧ s.soft = .out ∧ s.timers.Linked () ∧
      (s.timers.timer ()).activated = false := ⟨_, rfl, rfl, rfl, by decide, rfl⟩
  obtain ⟨s, hs, hhard, hsoft, hlinked, hflag⟩ := hrun
  have hfiring : ¬ s.Firing () := by
    rintro (hf | ⟨n, hf⟩)
    · rw [hhard] at hf
      cases hf
    · rw [hsoft] at hf
      cases hf
  have := ((h.last hs).flag () hfiring).mpr hlinked
  rw [hflag] at this
  cases this

end ControlRTT.Kernel.TimerFlag

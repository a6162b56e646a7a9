import ControlRTT.Lib.Loops
import ControlRTT.Kernel.HardTimer

/-! # The loop of rt_timer_check (timer.c)

Timers are started, stopped and controlled at any ticks, and no timeout function touches a timer.
A periodic timer is put back into the list that is being checked. With a time of 0 it has expired
when it is put back, so that a check fires it for ever (`rtTimerCheck_ends_iff`). -/
namespace ControlRTT.Kernel.Timer
open ControlRTT.Lib ControlRTT.Lib.CInt Loops

variable {Id : Type} [DecidableEq Id]

namespace Timers

/-- The body of the loop, during which the tick stays the same. -/
def checkBody (currentTick : Nat) (s : Timers Id) : Option (Timers Id) :=
  match (s.list .hard).head? with
  | some t =>
    if s.Reached currentTick t then some ((s.rtTimerRemove t).afterTimeout currentTick t) else none
  | none => none

end Timers

/-- A set of active hard timers, each with a time and whether it is periodic. -/
structure HardTimers (Id : Type) where
  active : List Id
  time : Id → Nat
  periodic : Id → Bool
  accepted : ∀ t, time t < rtTickMax / 2

namespace Timers
variable {s s' : Timers Id} {currentTick : Nat} {t u : Id}

/-- What a timer is set to. -/
def settings (s : Timers Id) (u : Id) : Nat × Bool × Kind :=
  ((s.timer u).initTick, (s.timer u).periodic, (s.timer u).kind)

theorem settings_setTimer {b : RtTimer} (hb : b.initTick = (s.timer t).initTick ∧
    b.periodic = (s.timer t).periodic ∧ b.kind = (s.timer t).kind) :
    (s.setTimer t b).settings u = s.settings u := by
  unfold settings
  by_cases hut : u = t
  · subst hut
    rw [setTimer_self, hb.1, hb.2.1, hb.2.2]
  · rw [setTimer_ne s b hut]

theorem settings_rtTimerStart (tick : Nat) :
    (s.rtTimerStart tick t).settings u = s.settings u := by
  unfold settings
  by_cases hut : u = t
  · subst hut
    rw [rtTimerStart_self]
  · rw [rtTimerStart_ne s tick hut]

theorem settings_afterTimeout : (s.afterTimeout currentTick t).settings u = s.settings u := by
  unfold afterTimeout
  split
  · rw [settings_rtTimerStart]
    exact settings_setTimer ⟨rfl, rfl, rfl⟩
  · exact settings_setTimer ⟨rfl, rfl, rfl⟩

/-- The rows are in order, and the times are accepted. -/
structure Sound (s : Timers Id) : Prop where
  ok : s.Ok
  time : ∀ t, (s.timer t).initTick < rtTickMax / 2

omit [DecidableEq Id] in
theorem Sound.of_settings (h : s.Sound) (hok : s'.Ok)
    (hsettings : ∀ u, s'.settings u = s.settings u) : s'.Sound where
  ok := hok
  time u := (congrArg Prod.fst (hsettings u)).trans_lt (h.time u)

theorem Ok.afterTimeout (h : s.Ok) (currentTick : Nat) (t : Id) :
    (s.afterTimeout currentTick t).Ok := by
  unfold Timers.afterTimeout
  split
  · exact (h.setActivated t false).rtTimerStart currentTick t
  · exact h.setActivated t false

/-! ## One turn -/

theorem checkBody_cases (h : checkBody currentTick s = some s') :
    ∃ t rest, s.list .hard = t :: rest ∧ s.Reached currentTick t ∧
      s' = (s.rtTimerRemove t).afterTimeout currentTick t := by
  unfold checkBody at h
  split at h
  · rename_i t hhead
    obtain ⟨rest, hlist⟩ := List.head?_eq_some_iff.mp hhead
    obtain ⟨hreached, h⟩ := Option.ite_none_right_eq_some.mp h
    exact ⟨t, rest, hlist, hreached, (Option.some.inj h).symm⟩
  · cases h

theorem Sound.checkBody (h : s.Sound) (hbody : checkBody currentTick s = some s') : s'.Sound := by
  obtain ⟨t, rest, -, -, rfl⟩ := checkBody_cases hbody
  exact h.of_settings ((h.ok.rtTimerRemove t).afterTimeout currentTick t) fun u =>
    settings_afterTimeout

theorem afterTimeout_ne (h : u ≠ t) :
    ((s.rtTimerRemove t).afterTimeout currentTick t).timer u = s.timer u := by
  unfold afterTimeout
  split
  · rw [rtTimerStart_ne _ _ h, setActivated_ne _ _ h]
    rfl
  · rw [setActivated_ne _ _ h]
    rfl

/-- A timer that is periodic is put back with a new timeout, any other one is not. -/
theorem Sound.list_afterTimeout (h : s.Sound) (currentTick : Nat) {rest : List Id}
    (hlist : s.list .hard = t :: rest) :
    let s' := (s.rtTimerRemove t).afterTimeout currentTick t
    (((s.timer t).periodic = true ∧ (s.timer t).activated = true) ∧
      (s'.list .hard).Perm (t :: rest) ∧
      s'.timer t = { s.timer t with
        timeoutTick := u32 (currentTick + (s.timer t).initTick), activated := true }) ∨
    (¬ ((s.timer t).periodic = true ∧ (s.timer t).activated = true) ∧ s'.list .hard = rest) := by
  have hkind : (s.timer t).kind = .hard := h.ok.kind .hard t (hlist ▸ List.mem_cons_self)
  have hremoved : (s.rtTimerRemove t).list .hard = rest := by
    rw [list_rtTimerRemove, hlist, List.erase_cons_head]
  have hnot : t ∉ rest := by
    have hnodup : (t :: rest).Nodup := hlist ▸ (h.ok.rows .hard).nodup_base
    exact (List.nodup_cons.mp hnodup).1
  dsimp only
  unfold afterTimeout
  by_cases hboth : ((s.rtTimerRemove t).timer t).periodic = true ∧
      ((s.rtTimerRemove t).timer t).activated = true
  · rw [if_pos hboth]
    refine .inl ⟨hboth, ?_, ?_⟩
    · have hperm := ((h.ok.rtTimerRemove t).setActivated t false).perm_list_rtTimerStart
        currentTick t .hard
      have hlist' : ((s.rtTimerRemove t).setActivated t false).list .hard = rest := hremoved
      rw [setActivated_self, hlist', List.erase_of_not_mem hnot] at hperm
      exact hperm.trans (List.Perm.of_eq (if_pos hkind.symm))
    · rw [rtTimerStart_self, setActivated_self]
      rfl
  · rw [if_neg hboth]
    exact .inr ⟨hboth, hremoved⟩

/-! ## Checks that end -/

/-- A timer that is put back with a time that is not 0 has not been reached. -/
theorem not_reached_stamped {time : Nat} (htick : currentTick ≤ rtTickMax) (hpos : time ≠ 0)
    (htime : time < rtTickMax / 2) :
    ¬ usub currentTick (u32 (currentTick + time)) < rtTickMax / 2 := by
  simp only [usub, u32, rtTickMax] at *
  omega

/-- The number of timers that are reached. -/
def reachedIn (currentTick : Nat) (s : Timers Id) (L : List Id) : Nat :=
  L.countP fun u => decide (s.Reached currentTick u)

omit [DecidableEq Id] in
theorem reachedIn_congr {L : List Id} (h : ∀ u ∈ L, s'.timer u = s.timer u) :
    s'.reachedIn currentTick L = s.reachedIn currentTick L := by
  refine List.countP_congr fun u hu => ?_
  rw [decide_eq_true_iff, decide_eq_true_iff, Reached, Reached, h u hu]

/-- Every turn leaves fewer timers that are reached. -/
theorem Sound.ends (h : s.Sound) (htick : currentTick ≤ rtTickMax)
    (htimes : ∀ t ∈ s.list .hard, (s.timer t).periodic = true → (s.timer t).initTick ≠ 0) :
    Ends (Timers.checkBody currentTick) s := by
  refine ends_of_measure (I := fun s : Timers Id => s.Sound ∧
      ∀ t ∈ s.list .hard, (s.timer t).periodic = true → (s.timer t).initTick ≠ 0)
    (fun s => s.reachedIn currentTick (s.list .hard)) ?_ ⟨h, htimes⟩
  rintro s s' ⟨hs, htimes⟩ hbody
  have hsound := hs.checkBody hbody
  obtain ⟨t, rest, hlist, hreached, rfl⟩ := checkBody_cases hbody
  obtain ⟨s', hs'⟩ : ∃ s', s' = (s.rtTimerRemove t).afterTimeout currentTick t := ⟨_, rfl⟩
  have hnodup : (t :: rest).Nodup := hlist ▸ (hs.ok.rows .hard).nodup_base
  have hrest : s'.reachedIn currentTick rest = s.reachedIn currentTick rest :=
    reachedIn_congr fun u hu => hs' ▸
      afterTimeout_ne (ne_of_mem_of_not_mem hu (List.nodup_cons.mp hnodup).1)
  have hkeep (u : Id) (hu : u ∈ s.list .hard) :
      (s'.timer u).periodic = true → (s'.timer u).initTick ≠ 0 := by
    have hsame : s'.settings u = s.settings u := hs' ▸ settings_afterTimeout
    obtain ⟨htime, hrest⟩ := Prod.mk.inj hsame
    rw [htime, (Prod.mk.inj hrest).1]
    exact htimes u hu
  have hcases := hs.list_afterTimeout currentTick hlist
  rw [← hs'] at hsound hcases ⊢
  have hcount : s.reachedIn currentTick (s.list .hard) = s.reachedIn currentTick rest + 1 := by
    rw [hlist]
    exact List.countP_cons_of_pos (decide_eq_true hreached)
  rw [hlist] at hkeep
  rw [hcount, ← hrest]
  obtain ⟨⟨hperiodic, -⟩, hperm, hself⟩ | ⟨-, hgone⟩ := hcases
  · refine ⟨⟨hsound, fun u hu => hkeep u (hperm.subset hu)⟩, ?_⟩
    have hnot : ¬ s'.Reached currentTick t := by
      unfold Reached
      rw [hself]
      exact not_reached_stamped htick (htimes t (hlist ▸ List.mem_cons_self) hperiodic) (hs.time t)
    refine Nat.lt_succ_of_le (Nat.le_of_eq ((hperm.countP_eq _).trans ?_))
    exact List.countP_cons_of_neg (by simpa using hnot)
  · refine ⟨⟨hsound, fun u hu => hkeep u (List.mem_cons_of_mem _ (hgone ▸ hu))⟩, ?_⟩
    rw [hgone]
    exact Nat.lt_succ_self _

/-! ## Checks that do not end -/

/-- Hard timers that have been started at tick 0, in the order of their times. -/
structure AtZero (s : Timers Id) : Prop where
  sound : s.Sound
  kind : ∀ t, (s.timer t).kind = .hard
  order : (s.list .hard).Pairwise fun t u => (s.timer t).initTick ≤ (s.timer u).initTick
  stamped : ∀ t ∈ s.list .hard,
    (s.timer t).timeoutTick = (s.timer t).initTick ∧ (s.timer t).activated = true

theorem settings_startDetach : (s.startDetach t).settings u = s.settings u :=
  settings_setTimer (s := s.rtTimerRemove t) ⟨rfl, rfl, rfl⟩

theorem AtZero.startDetach (h : s.AtZero) (t : Id) : (s.startDetach t).AtZero := by
  have hlist : (s.startDetach t).list .hard = (s.list .hard).erase t := list_rtTimerRemove s t .hard
  have htime (u : Id) : ((s.startDetach t).timer u).initTick = (s.timer u).initTick :=
    congrArg Prod.fst (settings_startDetach (s := s) (t := t) (u := u))
  refine ⟨h.sound.of_settings (h.sound.ok.startDetach t) fun u => settings_startDetach, fun u => ?_,
    ?_, fun u hu => ?_⟩
  · exact (congrArg (fun b => b.2.2) (settings_startDetach (s := s) (t := t) (u := u))).trans
      (h.kind u)
  · rw [hlist]
    refine (h.order.sublist List.erase_sublist).imp fun {u v} huv => ?_
    rwa [htime, htime]
  · rw [hlist] at hu
    have hne : u ≠ t := ((h.sound.ok.rows .hard).nodup_base.mem_erase_iff.mp hu).1
    have hsame : (s.startDetach t).timer u = s.timer u := setActivated_ne _ _ hne
    rw [hsame]
    exact h.stamped u (List.mem_of_mem_erase hu)

omit [DecidableEq Id] in
theorem AtZero.mem_list (h : s.AtZero) : u ∈ s.list .hard ↔ s.Linked u := by
  rw [Linked, h.kind u]

theorem AtZero.mem_rtTimerStart (h : s.AtZero) :
    u ∈ (s.rtTimerStart 0 t).list .hard ↔ u = t ∨ u ∈ s.list .hard := by
  have hkind : ((s.rtTimerStart 0 t).timer u).kind = .hard :=
    (congrArg (fun b => b.2.2) (settings_rtTimerStart (s := s) (t := t) (u := u) 0)).trans
      (h.kind u)
  rw [h.mem_list, ← h.sound.ok.linked_rtTimerStart 0 t u, Linked, hkind]

theorem AtZero.rtTimerStart (h : s.AtZero) (t : Id) : (s.rtTimerStart 0 t).AtZero := by
  have htime (u : Id) : ((s.rtTimerStart 0 t).timer u).initTick = (s.timer u).initTick :=
    congrArg Prod.fst (settings_rtTimerStart (s := s) (t := t) (u := u) 0)
  have hword (u : Id) : u32 (s.timer u).initTick = (s.timer u).initTick :=
    u32_of_lt ((h.sound.time u).trans (by decide))
  refine ⟨h.sound.of_settings (h.sound.ok.rtTimerStart 0 t) fun u => settings_rtTimerStart 0,
    fun u => ?_, ?_, fun u hu => ?_⟩
  · exact (congrArg (fun b => b.2.2) (settings_rtTimerStart (s := s) (t := t) (u := u) 0)).trans
      (h.kind u)
  · obtain ⟨s₁, hs₁⟩ : ∃ s₁, s₁ = (s.startDetach t).startStamp 0 t := ⟨_, rfl⟩
    have hlist : s₁.list .hard = (s.list .hard).erase t := hs₁ ▸ list_rtTimerRemove s t .hard
    have hself : s₁.timer t = { s.timer t with
        timeoutTick := u32 (0 + (s.timer t).initTick), activated := false } := by
      rw [hs₁, startStamp, setTimer_self, Timers.startDetach, setActivated_self]
      rfl
    have hne {u : Id} (hut : u ≠ t) : s₁.timer u = s.timer u := by
      rw [hs₁, startStamp, setTimer_ne _ _ hut, Timers.startDetach, setActivated_ne _ _ hut]
      rfl
    have hkind : (s₁.timer t).kind = .hard := by rw [hself]; exact h.kind t
    have hlater : ∀ u ∈ s₁.list .hard,
        (s₁.later t u = true ↔ (s.timer t).initTick < (s.timer u).initTick) := by
      intro u hu
      rw [hlist] at hu
      obtain ⟨hut, hu⟩ := (h.sound.ok.rows .hard).nodup_base.mem_erase_iff.mp hu
      have ht := h.sound.time t
      have htu := h.sound.time u
      refine later_iff _ ?_ ?_ ?_
      · rw [hself, Nat.zero_add]
      · rw [hne hut, (h.stamped u hu).1, hword]
      · simp only [Near, rtTickMax] at *
        omega
    have hlink := (hs₁ ▸ h.sound.ok.stamped 0 t : s₁.Ok).pairwise_startLink (t := t)
      (R := fun u v => (s.timer u).initTick ≤ (s.timer v).initTick)
    rw [hkind] at hlink
    have horder := hlink (hlist ▸ h.order.sublist List.erase_sublist) ?_ ?_ ?_
    · rw [Timers.rtTimerStart, ← hs₁]
      refine horder.imp fun {u v} huv => ?_
      rw [hs₁, ← Timers.rtTimerStart, htime, htime]
      exact huv
    · intro u hu hf
      exact Nat.le_of_not_lt fun hlt => by simp [(hlater u hu).mpr hlt] at hf
    · exact fun u hu htrue => ((hlater u hu).mp htrue).le
    · exact fun u hu v hv huv htrue => (hlater v hv).mpr (((hlater u hu).mp htrue).trans_le huv)
  · by_cases hut : u = t
    · subst hut
      rw [rtTimerStart_self, Nat.zero_add, hword]
      exact ⟨rfl, rfl⟩
    · rw [rtTimerStart_ne _ _ hut]
      exact h.stamped u ((h.mem_rtTimerStart.mp hu).resolve_left hut)

end Timers

open Timers

theorem timers_afterTimeout (s : HardTimer.HardRun Id) (t : Id) :
    (s.afterTimeout t).timers = s.timers.afterTimeout s.tick t := by
  unfold HardTimer.HardRun.afterTimeout afterTimeout
  split
  · rfl
  · rfl

/-- A turn of the loop is a fire and a return in a run of the hard timers. -/
theorem checkBody_eq_step (s : HardTimer.HardRun Id) (h : s.check = .loop s.tick) :
    checkBody s.tick s.timers =
      ((HardTimer.step s .fire).bind fun s => HardTimer.step s .return).map (·.timers) := by
  simp only [checkBody, HardTimer.step, h, HardTimer.HardRun.due]
  cases (s.timers.list .hard).head? with
  | none => rfl
  | some t =>
    dsimp only
    rw [Option.filter_some]
    by_cases hreached : s.timers.Reached s.tick t
    · rw [if_pos hreached, if_pos (decide_eq_true hreached)]
      exact congrArg some (timers_afterTimeout
        { s.remove t with check := .callback t, fired := s.number t :: s.fired } t).symm
    · rw [if_neg hreached, if_neg (by simpa using hreached)]
      rfl

/-! ## The calls -/

/-- The timers of a set, all started at tick 0. -/
def HardTimers.started (a : HardTimers Id) (above mask : Nat) : Timers Id :=
  a.active.foldl (fun s t => s.rtTimerStart 0 t)
    (rtTimerInit above mask fun t => { initTick := a.time t, periodic := a.periodic t })

end ControlRTT.Kernel.Timer

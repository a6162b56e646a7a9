import ControlRTT.Lib.Runs
import ControlRTT.Kernel.TimerClock

/-! # Hard timers in the order of expiry (timer.c)

Threads start, stop and control timers, with interrupts between the critical sections of
their calls; every tick interrupt calls `rt_timer_check`, whose timeout functions run
with interrupts off. `rt_timer_start` reads the tick outside its critical sections, so a
timer can be linked ticks after its stamp. As long as the expiry of a timer that is
linked is near enough to now and to the other expiries, and no two starts of a timer
overlap, the list is ordered in every row and a check fires what has expired, in order
(`ordered_and_exact`). -/
namespace ControlRTT.Kernel.HardTimer
open ControlRTT.Lib ControlRTT.Lib.CInt ControlRTT.Lib.Runs ControlRTT.Kernel.Timer

/-- What is left of a call between two of its sections. -/
inductive Section where
  | stamp
  | link
  | remove
  | clear
  deriving DecidableEq, Repr

/-- The timers at a true time `now`, of which the tick is the low word, and for every
timer its true expiry and the number of the start that linked it last. `fired` has
the numbers of the starts that timers were fired for, and `pending` the calls of threads
that have sections left. -/
structure HardRun (Id : Type) where
  timers : Timers Id
  now : Nat
  check : Check Id := .out
  pending : List (Section × Id) := []
  expiry : Id → Nat := fun _ => 0
  number : Id → Nat := fun _ => 0
  links : Nat := 0
  fired : List Nat := []

variable {Id : Type} [DecidableEq Id]

def update (f : Id → Nat) (t : Id) (n : Nat) : Id → Nat := fun u => if u = t then n else f u

namespace HardRun

def tick (s : HardRun Id) : Nat := u32 s.now

def detach (s : HardRun Id) (t : Id) : HardRun Id := { s with timers := s.timers.startDetach t }

def stamp (s : HardRun Id) (t : Id) : HardRun Id :=
  { s with
    timers := s.timers.startStamp s.tick t
    expiry := update s.expiry t (s.now + (s.timers.timer t).initTick) }

def link (s : HardRun Id) (t : Id) : HardRun Id :=
  { s with
    timers := s.timers.startLink t
    number := update s.number t s.links
    links := s.links + 1 }

/-- A call of `rt_timer_start` with interrupts off. -/
def start (s : HardRun Id) (t : Id) : HardRun Id := ((s.detach t).stamp t).link t

def remove (s : HardRun Id) (t : Id) : HardRun Id := { s with timers := s.timers.rtTimerRemove t }

def setActivated (s : HardRun Id) (t : Id) (b : Bool) : HardRun Id :=
  { s with timers := s.timers.setActivated t b }

/-- `Timers.afterTimeout` with the expiry and the number of the start. -/
def afterTimeout (s : HardRun Id) (t : Id) : HardRun Id :=
  if (s.timers.timer t).periodic ∧ (s.timers.timer t).activated then
    (s.setActivated t false).start t
  else s.setActivated t false

end HardRun

/-- A section of a call of a thread, with what is left then. -/
def Section.run (s : HardRun Id) (t : Id) : Section → HardRun Id × List (Section × Id)
  | .stamp => (s.stamp t, [(.link, t)])
  | .link => (s.link t, [])
  | .remove => (s.remove t, [(.clear, t)])
  | .clear => (s.setActivated t false, [])

inductive Event (Id : Type) where
  | tick
  | start (t : Id)
  | stop (t : Id)
  | proceed (part : Section) (t : Id)
  | callStart (t : Id)
  | callStop (t : Id)
  | setTime (t : Id) (time : Nat)
  | setPeriodic (t : Id) (periodic : Bool)
  | fire
  | return
  | leave

/-- The timer at the head of the list, if `rt_timer_check` fires it. -/
def HardRun.due (s : HardRun Id) (currentTick : Nat) : Option Id :=
  (s.timers.list .hard).head?.filter fun t => decide (s.timers.Reached currentTick t)

/-- Threads run when `rt_timer_check` does not; a timeout function calls what it likes.
Times are below `RT_TICK_MAX / 2`. -/
def step (s : HardRun Id) : Event Id → Option (HardRun Id)
  | .tick =>
    if s.check = .out then
      some { s with now := s.now + 1, check := .loop (u32 (s.now + 1)) }
    else none
  | .start t =>
    if s.check = .out then some { s.detach t with pending := (.stamp, t) :: s.pending }
    else none
  | .stop t =>
    if s.check = .out ∧ (s.timers.timer t).activated then
      some { s with pending := (.remove, t) :: s.pending }
    else none
  | .proceed part t =>
    if s.check = .out ∧ (part, t) ∈ s.pending then
      some { (part.run s t).1 with pending := (part.run s t).2 ++ s.pending.erase (part, t) }
    else none
  | .callStart t => match s.check with
    | .callback _ => some (s.start t)
    | _ => none
  | .callStop t => match s.check with
    | .callback _ => some { s with timers := (s.timers.rtTimerStop t).1 }
    | _ => none
  | .setTime t time =>
    if time < rtTickMax / 2 then some { s with timers := s.timers.controlSetTime t time }
    else none
  | .setPeriodic t periodic => some { s with timers := s.timers.controlSetPeriodic t periodic }
  | .fire => match s.check with
    | .loop currentTick => (s.due currentTick).map fun t =>
      { s.remove t with check := .callback t, fired := s.number t :: s.fired }
    | _ => none
  | .return => match s.check with
    | .callback t => some { s.afterTimeout t with check := .loop s.tick }
    | _ => none
  | .leave => match s.check with
    | .loop currentTick =>
      if s.due currentTick = none then some { s with check := .out } else none
    | _ => none

def start (above mask : Nat) (timer : Id → RtTimer) (now : Nat) : HardRun Id where
  timers := rtTimerInit above mask timer
  now := now

/-! ## What a run should do -/

/-- Timer `t` stands before timer `u`: it expires first, or was started first with the
same expiry, and the comparison of the code sees that. -/
structure Before (s : HardRun Id) (t u : Id) : Prop where
  expiry : s.expiry t < s.expiry u ∨ (s.expiry t = s.expiry u ∧ s.number t < s.number u)
  wrap : usub (s.timers.timer u).timeoutTick (s.timers.timer t).timeoutTick < rtTickMax / 2

/-- The rows are ordered sublists of those below, and no start has fired twice. -/
structure Ordered (s : HardRun Id) : Prop where
  levels : (s.timers.rows .hard).Pairwise List.Sublist
  rows : ∀ row ∈ s.timers.rows .hard, row.Pairwise (Before s)
  once : s.fired.Nodup

/-- The timer that is fired has expired and is the first of the list, and the check ends
when no linked timer has expired. -/
def Exact (s : HardRun Id) : Event Id → Prop
  | .fire => ∀ s' t, step s .fire = some s' → s'.check = .callback t →
      s.expiry t ≤ s.now ∧ ∀ u ∈ s.timers.list .hard, u ≠ t → Before s t u
  | .leave => ∀ s', step s .leave = some s' → ∀ u ∈ s.timers.list .hard, s.now < s.expiry u
  | _ => True

/-- An expiry that is less than `RT_TICK_MAX / 2` from those of the linked timers. -/
def Fits (s : HardRun Id) (t : Id) (expiry : Nat) : Prop :=
  (s.timers.timer t).kind = .hard → ∀ u ∈ s.timers.list .hard, u ≠ t →
    s.expiry u < expiry + rtTickMax / 2 ∧ expiry < s.expiry u + rtTickMax / 2

/-- No timer is stamped or linked that is linked already, and a timer is linked while its
expiry fits. -/
def Good (s : HardRun Id) : Event Id → Prop
  | .proceed .stamp t => ¬ s.timers.Linked t
  | .proceed .link t => ¬ s.timers.Linked t ∧ Fits s t (s.expiry t) ∧
      s.now + 1 < s.expiry t + rtTickMax / 2
  | .callStart t => Fits s t (s.now + (s.timers.timer t).initTick)
  | .return => ∀ t, s.check = .callback t → (s.timers.timer t).periodic = true →
      (s.timers.timer t).activated = true → Fits s t (s.now + (s.timers.timer t).initTick)
  | _ => True

/-! ## The order of the list -/

/-- `Before` in true time. -/
def Earlier (s : HardRun Id) (t u : Id) : Prop :=
  s.expiry t < s.expiry u ∨ (s.expiry t = s.expiry u ∧ s.number t < s.number u)

/-- The linked hard timers: in order, near to each other, each with a start of its own
that has not fired yet, and none overdue so long that the check would miss it. -/
structure Queue (s : HardRun Id) (timers : Timers Id) : Prop where
  order : (timers.list .hard).Pairwise (Earlier s)
  near : ∀ t ∈ timers.list .hard, ∀ u ∈ timers.list .hard,
    s.expiry t < s.expiry u + rtTickMax / 2
  number : ∀ t ∈ timers.list .hard, s.number t < s.links ∧ s.number t ∉ s.fired
  apart : ∀ t ∈ timers.list .hard, ∀ u ∈ timers.list .hard, s.number t = s.number u → t = u
  behind : ∀ t ∈ timers.list .hard, s.now < s.expiry t + rtTickMax / 2
  out : s.check = .out → ∀ t ∈ timers.list .hard, s.now + 1 < s.expiry t + rtTickMax / 2

structure Inv (s : HardRun Id) : Prop where
  ok : s.timers.Ok
  init : ∀ t, (s.timers.timer t).initTick < rtTickMax / 2
  stamped : ∀ t, (s.timers.timer t).timeoutTick = u32 (s.expiry t)
  ahead : ∀ t, s.expiry t < s.now + rtTickMax / 2
  queue : Queue s s.timers
  once : s.fired.Nodup ∧ ∀ n ∈ s.fired, n < s.links
  clock : ∀ c, s.check = .loop c → c = u32 s.now

omit [DecidableEq Id] in
theorem Queue.sublist {s : HardRun Id} {timers timers' : Timers Id} (h : Queue s timers)
    (hsub : (timers'.list .hard).Sublist (timers.list .hard)) : Queue s timers' where
  order := h.order.sublist hsub
  near t ht u hu := h.near t (hsub.mem ht) u (hsub.mem hu)
  number t ht := h.number t (hsub.mem ht)
  apart t ht u hu := h.apart t (hsub.mem ht) u (hsub.mem hu)
  behind t ht := h.behind t (hsub.mem ht)
  out ho t ht := h.out ho t (hsub.mem ht)

omit [DecidableEq Id] in
/-- Timers leave the list and keep their stamps. -/
theorem Inv.shrink {s : HardRun Id} (h : Inv s) {timers : Timers Id} (hok : timers.Ok)
    (hsub : (timers.list .hard).Sublist (s.timers.list .hard))
    (hinit : ∀ t, (timers.timer t).initTick < rtTickMax / 2)
    (hstamp : ∀ t, (timers.timer t).timeoutTick = (s.timers.timer t).timeoutTick) :
    Inv { s with timers := timers } where
  ok := hok
  init := hinit
  stamped t := (hstamp t).trans (h.stamped t)
  ahead := h.ahead
  queue :=
    have hq := h.queue.sublist hsub
    ⟨hq.order, hq.near, hq.number, hq.apart, hq.behind, hq.out⟩
  once := h.once
  clock := h.clock

omit [DecidableEq Id] in
/-- Only the calls that are under way change. -/
theorem Inv.pending {s : HardRun Id} (h : Inv s) (calls : List (Section × Id)) :
    Inv { s with pending := calls } :=
  ⟨h.ok, h.init, h.stamped, h.ahead,
    ⟨h.queue.order, h.queue.near, h.queue.number, h.queue.apart, h.queue.behind, h.queue.out⟩,
    h.once, h.clock⟩

/-- A timer is changed and keeps its stamp. -/
theorem Inv.setTimer {s : HardRun Id} (h : Inv s) {t : Id} {b : RtTimer}
    (hkind : b.kind = (s.timers.timer t).kind) (hinit : b.initTick < rtTickMax / 2)
    (hstamp : b.timeoutTick = (s.timers.timer t).timeoutTick) :
    Inv { s with timers := s.timers.setTimer t b } := by
  refine h.shrink (h.ok.setTimer hkind) (List.Sublist.refl _) (fun u => ?_) fun u => ?_
  · by_cases hut : u = t
    · subst hut
      rwa [Timers.setTimer_self]
    · rw [Timers.setTimer_ne _ _ hut]
      exact h.init u
  · by_cases hut : u = t
    · subst hut
      rw [Timers.setTimer_self, hstamp]
    · rw [Timers.setTimer_ne _ _ hut]

theorem Inv.setActivated {s : HardRun Id} (h : Inv s) (t : Id) (b : Bool) :
    Inv (s.setActivated t b) := h.setTimer rfl (h.init t) rfl

theorem Inv.remove {s : HardRun Id} (h : Inv s) (t : Id) : Inv (s.remove t) :=
  h.shrink (h.ok.rtTimerRemove t)
    (Timers.list_rtTimerRemove s.timers t .hard ▸ List.erase_sublist) h.init fun _ => rfl

theorem Inv.detach {s : HardRun Id} (h : Inv s) (t : Id) : Inv (s.detach t) :=
  (h.remove t).setActivated t false

theorem Inv.stop {s : HardRun Id} (h : Inv s) (t : Id) :
    Inv { s with timers := (s.timers.rtTimerStop t).1 } := by
  unfold Timers.rtTimerStop
  split
  · exact h
  · exact h.detach t

theorem update_self (f : Id → Nat) (t : Id) (n : Nat) : update f t n t = n := if_pos rfl

theorem update_ne (f : Id → Nat) {t u : Id} (n : Nat) (h : u ≠ t) : update f t n u = f u :=
  if_neg h

theorem stamp_expiry_self (s : HardRun Id) (t : Id) :
    (s.stamp t).expiry t = s.now + (s.timers.timer t).initTick := update_self _ _ _

theorem stamp_expiry_ne (s : HardRun Id) {t u : Id} (h : u ≠ t) :
    (s.stamp t).expiry u = s.expiry u := update_ne _ _ h

theorem stamp_timer_self (s : HardRun Id) (t : Id) : (s.stamp t).timers.timer t =
    { s.timers.timer t with timeoutTick := u32 (s.tick + (s.timers.timer t).initTick) } :=
  Timers.setTimer_self _ _ _

theorem stamp_timer_ne (s : HardRun Id) {t u : Id} (h : u ≠ t) :
    (s.stamp t).timers.timer u = s.timers.timer u := Timers.setTimer_ne _ _ h

/-- A timer that is not linked gets a new expiry. -/
theorem Inv.stamp {s : HardRun Id} (h : Inv s) {t : Id} (ht : t ∉ s.timers.list .hard) :
    Inv (s.stamp t) := by
  have hne : ∀ u ∈ s.timers.list .hard, u ≠ t := fun u hu => ne_of_mem_of_not_mem hu ht
  have hold : ∀ u ∈ s.timers.list .hard, (s.stamp t).expiry u = s.expiry u := fun u hu =>
    stamp_expiry_ne s (hne u hu)
  refine ⟨h.ok.setTimer rfl, fun u => ?_, fun u => ?_, fun u => ?_, ?_, h.once, h.clock⟩
  · by_cases hut : u = t
    · subst hut
      rw [stamp_timer_self]
      exact h.init u
    · rw [stamp_timer_ne s hut]
      exact h.init u
  · by_cases hut : u = t
    · subst hut
      rw [stamp_timer_self, stamp_expiry_self]
      simp only [HardRun.tick, u32]
      omega
    · rw [stamp_timer_ne s hut, stamp_expiry_ne s hut]
      exact h.stamped u
  · by_cases hut : u = t
    · subst hut
      rw [stamp_expiry_self]
      exact Nat.add_lt_add_left (h.init u) s.now
    · rw [stamp_expiry_ne s hut]
      exact h.ahead u
  · have hq := h.queue
    refine ⟨hq.order.imp_of_mem fun {u v} hu hv huv => ?_, fun u hu v hv => ?_, hq.number,
      hq.apart, fun u hu => ?_, fun ho u hu => ?_⟩
    · unfold Earlier
      rw [hold u hu, hold v hv]
      exact huv
    · rw [hold u hu, hold v hv]
      exact hq.near u hu v hv
    · rw [hold u hu]
      exact hq.behind u hu
    · rw [hold u hu]
      exact hq.out ho u hu

/-- A timer is linked that was not. -/
theorem Inv.link {s : HardRun Id} (h : Inv s) {t : Id} (ht : ¬ s.timers.Linked t)
    (hfits : Fits s t (s.expiry t)) (hbehind : s.now < s.expiry t + rtTickMax / 2)
    (hout : s.check = .out → s.now + 1 < s.expiry t + rtTickMax / 2) : Inv (s.link t) := by
  have hq := h.queue
  have hnot : t ∉ s.timers.list .hard := fun hmem => ht (by
    rw [Timers.Linked, h.ok.kind .hard t hmem]
    exact hmem)
  have hne : ∀ u ∈ s.timers.list .hard, u ≠ t := fun u hu => ne_of_mem_of_not_mem hu hnot
  have hnum : ∀ u ∈ s.timers.list .hard, (s.link t).number u = s.number u := fun u hu =>
    update_ne _ _ (hne u hu)
  have hself : (s.link t).number t = s.links := update_self _ _ _
  have hstamped : ∀ u, ((s.link t).timers.timer u).timeoutTick =
      (s.timers.timer u).timeoutTick := by
    intro u
    by_cases hut : u = t
    · subst hut
      rw [HardRun.link, Timers.startLink_timer_self]
    · rw [HardRun.link, Timers.startLink_timer_ne _ hut]
  have hinit : ∀ u, ((s.link t).timers.timer u).initTick = (s.timers.timer u).initTick := by
    intro u
    by_cases hut : u = t
    · subst hut
      rw [HardRun.link, Timers.startLink_timer_self]
    · rw [HardRun.link, Timers.startLink_timer_ne _ hut]
  refine ⟨h.ok.startLink ht, fun u => (hinit u).trans_lt (h.init u),
    fun u => (hstamped u).trans (h.stamped u), h.ahead, ?_,
    ⟨h.once.1, fun n hn => (h.once.2 n hn).trans (Nat.lt_succ_self _)⟩, h.clock⟩
  have hmem := fun u => h.ok.mem_list_startLink t .hard u
  by_cases hkind : .hard = (s.timers.timer t).kind
  · have hwin := hfits hkind.symm
    have hcase : ∀ u ∈ (s.link t).timers.list .hard, u = t ∨ u ∈ s.timers.list .hard :=
      fun u hu => ((hmem u).mp hu).imp And.left id
    refine ⟨?_, fun u hu v hv => ?_, fun u hu => ?_, fun u hu v hv huv => ?_, fun u hu => ?_,
      fun ho u hu => ?_⟩
    · have hlater : ∀ u ∈ s.timers.list .hard,
          (s.timers.later t u = true ↔ s.expiry t < s.expiry u) := by
        intro u hu
        refine Timers.later_iff _ (h.stamped t) (h.stamped u) ?_
        obtain ⟨hlo, hhi⟩ := hwin u hu (hne u hu)
        simp only [Near, rtTickMax] at *
        omega
      have hlink := h.ok.pairwise_startLink (t := t) (R := Earlier (s.link t))
      rw [← hkind] at hlink
      refine hlink (hq.order.imp_of_mem fun {u v} hu hv huv => ?_) (fun u hu hf => ?_)
        (fun u hu htrue => ?_) fun u hu v hv huv htrue => ?_
      · unfold Earlier
        rw [hnum u hu, hnum v hv]
        exact huv
      · unfold Earlier
        rw [hnum u hu, hself]
        have hle : s.expiry u ≤ s.expiry t :=
          Nat.le_of_not_lt fun hlt => by simp [(hlater u hu).mpr hlt] at hf
        obtain hlt | heq := Nat.lt_or_eq_of_le hle
        · exact .inl hlt
        · exact .inr ⟨heq, (hq.number u hu).1⟩
      · exact .inl ((hlater u hu).mp htrue)
      · have hlt := (hlater u hu).mp htrue
        refine (hlater v hv).mpr ?_
        obtain huv | ⟨huv, -⟩ := huv
        · exact hlt.trans huv
        · exact hlt.trans_le huv.le
    · obtain rfl | hu' := hcase u hu
      · obtain rfl | hv' := hcase v hv
        · exact Nat.lt_add_of_pos_right (by decide)
        · exact (hwin v hv' (hne v hv')).2
      · obtain rfl | hv' := hcase v hv
        · exact (hwin u hu' (hne u hu')).1
        · exact hq.near u hu' v hv'
    · obtain rfl | hu' := hcase u hu
      · rw [hself]
        exact ⟨Nat.lt_succ_self _, fun hin => Nat.lt_irrefl _ (h.once.2 _ hin)⟩
      · rw [hnum u hu']
        exact ⟨(hq.number u hu').1.trans (Nat.lt_succ_self _), (hq.number u hu').2⟩
    · obtain rfl | hu' := hcase u hu
      · obtain rfl | hv' := hcase v hv
        · rfl
        · rw [hself, hnum v hv'] at huv
          exact absurd huv.symm (hq.number v hv').1.ne
      · obtain rfl | hv' := hcase v hv
        · rw [hself, hnum u hu'] at huv
          exact absurd huv (hq.number u hu').1.ne
        · rw [hnum u hu', hnum v hv'] at huv
          exact hq.apart u hu' v hv' huv
    · obtain rfl | hu' := hcase u hu
      · exact hbehind
      · exact hq.behind u hu'
    · obtain rfl | hu' := hcase u hu
      · exact hout ho
      · exact hq.out ho u hu'
  -- a soft timer leaves the hard list as it is
  · have hlist : (s.link t).timers.list .hard = s.timers.list .hard := by
      unfold Timers.list
      rw [HardRun.link, Timers.startLink_rows_ne _ _ hkind]
    refine ⟨?_, ?_, ?_, ?_, ?_, ?_⟩
    all_goals rw [hlist]
    · refine hq.order.imp_of_mem fun {u v} hu hv huv => ?_
      unfold Earlier
      rw [hnum u hu, hnum v hv]
      exact huv
    · exact hq.near
    · intro u hu
      rw [hnum u hu]
      exact ⟨(hq.number u hu).1.trans (Nat.lt_succ_self _), (hq.number u hu).2⟩
    · intro u hu v hv huv
      rw [hnum u hu, hnum v hv] at huv
      exact hq.apart u hu v hv huv
    · exact hq.behind
    · exact hq.out

/-! ## The steps -/

/-- A start with interrupts off. -/
theorem Inv.start {s : HardRun Id} (h : Inv s) {t : Id}
    (hfits : Fits s t (s.now + (s.timers.timer t).initTick)) (hin : s.check ≠ .out) :
    Inv (s.start t) := by
  have hd := h.detach t
  have hnot : ¬ (s.detach t).timers.Linked t := fun hl =>
    ((h.ok.linked_startDetach t t).mp hl).1 rfl
  have hkind : ((s.detach t).timers.timer t).kind = (s.timers.timer t).kind := by
    rw [HardRun.detach, Timers.startDetach, Timers.setActivated_self]
    rfl
  have hinit : ((s.detach t).timers.timer t).initTick = (s.timers.timer t).initTick := by
    rw [HardRun.detach, Timers.startDetach, Timers.setActivated_self]
    rfl
  have hlist : t ∉ (s.detach t).timers.list .hard := fun hmem => hnot (by
    rw [Timers.Linked, hd.ok.kind .hard t hmem]
    exact hmem)
  have hexpiry : ((s.detach t).stamp t).expiry t = s.now + (s.timers.timer t).initTick := by
    rw [stamp_expiry_self, hinit]
    rfl
  refine (hd.stamp hlist).link ?_ ?_ ?_ fun ho => absurd ho hin
  · exact fun hl => hnot ((Timers.linked_startStamp _ _ t t).mp hl)
  · intro hk u hu hut
    rw [stamp_timer_self] at hk
    have hin' : u ∈ s.timers.list .hard :=
      List.mem_of_mem_erase (Timers.list_rtTimerRemove s.timers t .hard ▸ hu)
    rw [hexpiry, stamp_expiry_ne _ hut]
    exact hfits (hkind.symm.trans hk) u hin' hut
  · rw [hexpiry]
    change s.now < _
    simp only [rtTickMax]
    omega

omit [DecidableEq Id] in
theorem due_eq_some {s : HardRun Id} {c : Nat} {t : Id} (h : s.due c = some t) :
    (s.timers.list .hard).head? = some t ∧ s.timers.Reached c t := by
  obtain ⟨hhead, hr⟩ := Option.filter_eq_some_iff.mp h
  exact ⟨hhead, of_decide_eq_true hr⟩

omit [DecidableEq Id] in
/-- What is linked is near enough to now for the check. -/
theorem Inv.reached_iff {s : HardRun Id} (h : Inv s) {t : Id} (ht : t ∈ s.timers.list .hard) :
    s.timers.Reached (u32 s.now) t ↔ s.expiry t ≤ s.now := by
  refine Timers.reached_iff _ (h.stamped t) ⟨h.queue.behind t ht, ?_⟩
  have := h.ahead t
  simp only [rtTickMax] at this
  omega

theorem step_fire {s s' : HardRun Id} (h : step s .fire = some s') :
    ∃ c t, s.check = .loop c ∧ s.due c = some t ∧
      s' = { s.remove t with check := .callback t, fired := s.number t :: s.fired } := by
  cases hc : s.check with
  | out | callback => simp [step, hc] at h
  | loop c =>
    simp only [step, hc] at h
    obtain ⟨t, ht, rfl⟩ := Option.map_eq_some_iff.mp h
    exact ⟨c, t, rfl, ht, rfl⟩

theorem Inv.fire {s : HardRun Id} (h : Inv s) {t : Id} (ht : t ∈ s.timers.list .hard) :
    Inv { s.remove t with check := .callback t, fired := s.number t :: s.fired } := by
  have hr := h.remove t
  have hq := hr.queue
  have hlist : (s.remove t).timers.list .hard = (s.timers.list .hard).erase t :=
    Timers.list_rtTimerRemove s.timers t .hard
  have hnodup : (s.timers.list .hard).Nodup := (h.ok.rows .hard).nodup_base
  refine ⟨hr.ok, hr.init, hr.stamped, hr.ahead, ?_, ?_, fun c hc => by cases hc⟩
  · refine ⟨hq.order, hq.near, fun u hu => ⟨(hq.number u hu).1, fun hin => ?_⟩, hq.apart,
      hq.behind, fun ho => by cases ho⟩
    obtain heq | hin := List.mem_cons.mp hin
    · have hu' := hnodup.mem_erase_iff.mp (hlist ▸ hu)
      exact hu'.1 (h.queue.apart u hu'.2 t ht heq)
    · exact (hq.number u hu).2 hin
  · refine ⟨List.nodup_cons.mpr ⟨(h.queue.number t ht).2, h.once.1⟩, fun n hn => ?_⟩
    obtain rfl | hn := List.mem_cons.mp hn
    · exact (h.queue.number t ht).1
    · exact h.once.2 n hn

omit [DecidableEq Id] in
/-- A check ends when nothing that is linked has expired. -/
theorem Inv.none_due {s : HardRun Id} (h : Inv s) {c : Nat} (hc : s.check = .loop c)
    (hdue : s.due c = none) : ∀ u ∈ s.timers.list .hard, s.now < s.expiry u := by
  obtain rfl := h.clock c hc
  intro u hu
  cases hl : s.timers.list .hard with
  | nil =>
    rw [hl] at hu
    cases hu
  | cons head rest =>
    have hmem : head ∈ s.timers.list .hard := hl ▸ List.mem_cons_self
    have hnot : ¬ s.timers.Reached (u32 s.now) head := by
      intro hr
      have : s.due (u32 s.now) = some head := by simp [HardRun.due, hl, hr]
      rw [hdue] at this
      cases this
    rw [h.reached_iff hmem] at hnot
    have horder := h.queue.order
    rw [hl] at hu horder
    obtain rfl | hu := List.mem_cons.mp hu
    · omega
    · obtain hlt | ⟨heq, -⟩ := (List.pairwise_cons.mp horder).1 u hu
      · omega
      · omega

theorem step_leave {s s' : HardRun Id} (h : step s .leave = some s') :
    ∃ c, s.check = .loop c ∧ s.due c = none ∧ s' = { s with check := .out } := by
  cases hc : s.check with
  | out | callback => simp [step, hc] at h
  | loop c =>
    simp only [step, hc] at h
    obtain ⟨hd, heq⟩ := Option.ite_none_right_eq_some.mp h
    exact ⟨c, rfl, hd, (Option.some.inj heq).symm⟩

theorem Inv.proceed {s : HardRun Id} (h : Inv s) {part : Section} {t : Id}
    (hgood : Good s (.proceed part t)) : Inv (part.run s t).1 := by
  cases part with
  | stamp =>
    refine h.stamp fun hmem => hgood ?_
    rw [Timers.Linked, h.ok.kind .hard t hmem]
    exact hmem
  | link =>
    obtain ⟨hnot, hfits, hnow⟩ := hgood
    exact h.link hnot hfits (by omega) fun _ => hnow
  | remove => exact h.remove t
  | clear => exact h.setActivated t false

theorem Inv.afterTimeout {s : HardRun Id} (h : Inv s) {t : Id} (hin : s.check ≠ .out)
    (hfits : (s.timers.timer t).periodic = true → (s.timers.timer t).activated = true →
      Fits s t (s.now + (s.timers.timer t).initTick)) : Inv (s.afterTimeout t) := by
  unfold HardRun.afterTimeout
  split
  · rename_i hboth
    refine (h.setActivated t false).start ?_ hin
    have := hfits hboth.1 hboth.2
    unfold Fits HardRun.setActivated at *
    rwa [Timers.setActivated_self]
  · exact h.setActivated t false

theorem Inv.step {s s' : HardRun Id} {e : Event Id} (h : Inv s) (hgood : Good s e)
    (hstep : step s e = some s') : Inv s' := by
  cases e with
  | tick =>
    obtain ⟨hc, heq⟩ := Option.ite_none_right_eq_some.mp hstep
    obtain rfl := Option.some.inj heq
    have hq := h.queue
    refine ⟨h.ok, h.init, h.stamped, fun t => (h.ahead t).trans (Nat.add_lt_add_right
      (Nat.lt_succ_self _) _), ⟨hq.order, hq.near, hq.number, hq.apart, hq.out hc,
      fun ho => by cases ho⟩, h.once, fun c hc => ?_⟩
    exact (Check.loop.inj hc).symm
  | start t =>
    obtain ⟨-, heq⟩ := Option.ite_none_right_eq_some.mp hstep
    obtain rfl := Option.some.inj heq
    exact (h.detach t).pending _
  | stop t =>
    obtain ⟨-, heq⟩ := Option.ite_none_right_eq_some.mp hstep
    obtain rfl := Option.some.inj heq
    exact h.pending _
  | proceed part t =>
    obtain ⟨-, heq⟩ := Option.ite_none_right_eq_some.mp hstep
    obtain rfl := Option.some.inj heq
    exact (h.proceed hgood).pending _
  | callStart t =>
    cases hc : s.check with
    | out | loop => simp [HardTimer.step, hc] at hstep
    | callback u =>
      simp only [HardTimer.step, hc, Option.some.injEq] at hstep
      subst hstep
      exact h.start hgood (by simp [hc])
  | callStop t =>
    cases hc : s.check with
    | out | loop => simp [HardTimer.step, hc] at hstep
    | callback u =>
      simp only [HardTimer.step, hc, Option.some.injEq] at hstep
      subst hstep
      simpa only [hc] using h.stop t
  | setTime t time =>
    obtain ⟨htime, heq⟩ := Option.ite_none_right_eq_some.mp hstep
    obtain rfl := Option.some.inj heq
    exact h.setTimer rfl htime rfl
  | setPeriodic t periodic =>
    obtain rfl := Option.some.inj hstep
    exact h.setTimer rfl (h.init t) rfl
  | fire =>
    obtain ⟨c, t, hc, hdue, rfl⟩ := step_fire hstep
    exact h.fire (List.mem_of_head? (due_eq_some hdue).1)
  | «return» =>
    cases hc : s.check with
    | out | loop => simp [HardTimer.step, hc] at hstep
    | callback t =>
      simp only [HardTimer.step, hc, Option.some.injEq] at hstep
      subst hstep
      have ha := h.afterTimeout (by simp [hc]) (hgood t hc)
      have hnow : (s.afterTimeout t).now = s.now := by
        unfold HardRun.afterTimeout
        split
        · rfl
        · rfl
      have hq := ha.queue
      refine ⟨ha.ok, ha.init, ha.stamped, ha.ahead, ⟨hq.order, hq.near, hq.number, hq.apart,
        hq.behind, fun ho => by cases ho⟩, ha.once, fun c hc => ?_⟩
      rw [← Check.loop.inj hc, hnow]
      rfl
  | leave =>
    obtain ⟨c, hc, hdue, rfl⟩ := step_leave hstep
    have hq := h.queue
    have hnone := h.none_due hc hdue
    refine ⟨h.ok, h.init, h.stamped, h.ahead, ⟨hq.order, hq.near, hq.number, hq.apart, hq.behind,
      fun _ t ht => ?_⟩, h.once, fun c hc => by cases hc⟩
    have := hnone t ht
    simp only [rtTickMax]
    omega

omit [DecidableEq Id] in
theorem Inv.before {s : HardRun Id} (h : Inv s) {t u : Id} (ht : t ∈ s.timers.list .hard)
    (hu : u ∈ s.timers.list .hard) (htu : Earlier s t u) : Before s t u where
  expiry := htu
  wrap := by
    rw [h.stamped t, h.stamped u]
    have h₁ := h.queue.near u hu t ht
    refine (usub_lt_iff ⟨h₁, ?_⟩).mpr ?_
    · have := h.queue.near t ht u hu
      simp only [rtTickMax] at this
      omega
    · obtain hlt | ⟨heq, -⟩ := htu
      · exact hlt.le
      · exact heq.le

omit [DecidableEq Id] in
theorem Inv.toOrdered {s : HardRun Id} (h : Inv s) : Ordered s where
  levels := (h.ok.rows .hard).sub
  rows row hrow := by
    have hsub := (h.ok.rows .hard).sublist_base hrow
    refine (h.queue.order.sublist hsub).imp_of_mem fun {t u} ht hu htu => ?_
    exact h.before (hsub.mem ht) (hsub.mem hu) htu
  once := h.once.1

theorem Inv.exact {s : HardRun Id} (h : Inv s) {e : Event Id} : Exact s e := by
  cases e with
  | fire =>
    intro s' t hstep ht
    obtain ⟨c, t', hc, hdue, rfl⟩ := step_fire hstep
    obtain rfl := Check.callback.inj ht
    obtain ⟨hhead, hr⟩ := due_eq_some hdue
    obtain rfl := h.clock c hc
    have hmem := List.mem_of_head? hhead
    refine ⟨(h.reached_iff hmem).mp hr, fun u hu hne => ?_⟩
    obtain ⟨rest, hl⟩ := List.head?_eq_some_iff.mp hhead
    have horder := h.queue.order
    rw [hl] at horder
    refine h.before hmem hu ((List.pairwise_cons.mp horder).1 u ?_)
    rw [hl] at hu
    exact (List.mem_cons.mp hu).resolve_left hne
  | leave =>
    intro s' hstep
    obtain ⟨c, hc, hdue, -⟩ := step_leave hstep
    exact h.none_due hc hdue
  | tick | start | stop | proceed | callStart | callStop | setTime | setPeriodic | «return» =>
    trivial

omit [DecidableEq Id] in
theorem inv_start (above mask : Nat) {timer : Id → RtTimer} (now : Nat)
    (hinit : ∀ t, (timer t).initTick < rtTickMax / 2) :
    Inv (start above mask timer now) := by
  have hnil : ∀ t, t ∉ (start above mask timer now).timers.list .hard := fun t ht => by
    rw [start, Timers.list_rtTimerInit] at ht
    cases ht
  have horder : ((start above mask timer now).timers.list .hard).Pairwise
      (Earlier (start above mask timer now)) := by
    rw [start, Timers.list_rtTimerInit]
    exact .nil
  refine ⟨Timers.ok_rtTimerInit above mask timer, hinit, fun _ => rfl, fun t => ?_, ?_,
    ⟨.nil, fun n hn => by cases hn⟩, fun c hc => by cases hc⟩
  · exact Nat.add_pos_right now (by decide)
  · exact ⟨horder, fun t ht => absurd ht (hnil t), fun t ht => absurd ht (hnil t),
      fun t ht => absurd ht (hnil t), fun t ht => absurd ht (hnil t),
      fun _ t ht => absurd ht (hnil t)⟩

/-! ## Whole runs -/

/-- In a run in which every timer is linked in time, the list is ordered in every state
and every check fires what has expired. -/
theorem ordered_and_exact (above mask : Nat) {timer : Id → RtTimer} (now : Nat)
    (hinit : ∀ t, (timer t).initTick < rtTickMax / 2) {es : List (Event Id)}
    (hgood : Along step Good (start above mask timer now) es) :
    Throughout step Ordered (start above mask timer now) es ∧
      Along step Exact (start above mask timer now) es := by
  have hstart := inv_start above mask now hinit
  refine ⟨throughout_of_along (J := Inv) (fun _ h => h.toOrdered)
    (fun _ _ _ h hg => h.step hg) hstart hgood, ?_⟩
  exact along_of_along (J := Inv) (fun _ _ _ h hg => h.step hg) (fun _ _ h _ => h.exact)
    hstart hgood

instance (s : HardRun Id) (t : Id) (expiry : Nat) : Decidable (Fits s t expiry) :=
  inferInstanceAs (Decidable (_ → ∀ u ∈ s.timers.list .hard, _))

instance (s : HardRun Id) : DecidablePred (Good s)
  | .proceed .stamp _ => inferInstanceAs (Decidable (¬ _))
  | .proceed .link _ => inferInstanceAs (Decidable (¬ _ ∧ _ ∧ _))
  | .callStart _ => inferInstanceAs (Decidable (Fits ..))
  | .return =>
    match hcheck : s.check with
    | .callback t =>
      decidable_of_iff ((s.timers.timer t).periodic = true → (s.timers.timer t).activated = true →
          Fits s t (s.now + (s.timers.timer t).initTick))
        ⟨fun h u hu => by cases hcheck.symm.trans hu; exact h, fun h => h t hcheck⟩
    | .out | .loop _ => isTrue fun t ht => by cases hcheck.symm.trans ht
  | .proceed .remove _ | .proceed .clear _ | .tick | .start _ | .stop _ | .callStop _ |
    .setTime _ _ | .setPeriodic _ _ | .fire | .leave => isTrue trivial

/-- Two timers are started, the one that expires later first, and fire on both sides of the
tick counter's end. -/
def twoShots : List (Event Bool) :=
  [.start true, .proceed .stamp true, .proceed .link true, .start false, .proceed .stamp false,
    .proceed .link false, .tick, .fire, .return, .leave, .tick, .fire, .return, .leave]

theorem ordered_and_exact_twoShots :
    Throughout step Ordered
        (start 1 1 (fun b => { initTick := if b then 2 else 1 }) 0xFFFFFFFE) twoShots ∧
      Along step Exact
        (start 1 1 (fun b => { initTick := if b then 2 else 1 }) 0xFFFFFFFE) twoShots :=
  ordered_and_exact 1 1 0xFFFFFFFE (by decide) (by decide)

/-- Timer `false` is stamped at tick 100, and before it is linked, a tick passes and timer
`true` is started with the longest time. -/
def lateLink : List (Event Bool) :=
  [.start false, .proceed .stamp false, .tick, .leave, .start true, .proceed .stamp true,
    .proceed .link true, .proceed .link false]

/-- The timer that expires first is put behind the other. -/
theorem lateLink_is_not_ordered :
    ¬ Throughout step Ordered
      (start 0 3 (fun b => { initTick := if b then 0x7FFFFFFE else 0 }) 100) lateLink := by
  intro h
  have hrun : ∃ s, run step (start 0 3 (fun b => { initTick := if b then 0x7FFFFFFE else 0 }) 100)
      lateLink = some s ∧ s.timers.rows .hard = [[true, false]] ∧ s.expiry true = 0x80000063 ∧
      s.expiry false = 100 := ⟨_, rfl, by decide, rfl, rfl⟩
  obtain ⟨s, hs, hrows, htrue, hfalse⟩ := hrun
  have hrow := (h.last hs).rows [true, false] (by rw [hrows]; exact List.mem_cons_self)
  obtain hlt | ⟨heq, -⟩ := ((List.pairwise_cons.mp hrow).1 false List.mem_cons_self).expiry
  · omega
  · omega

end ControlRTT.Kernel.HardTimer

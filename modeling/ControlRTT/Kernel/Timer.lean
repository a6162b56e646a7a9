import ControlRTT.Lib.CInt
import ControlRTT.Lib.SkipList

/-! # Timers (timer.c)

The timer objects and the hard and the soft timer list, each a skip list, and the
operations that the checks and the timer thread are built from. `rt_timer_start` has
two critical sections, with the stamp of the timer between them, so it is in three
parts. The `RT_ASSERT`s are not part of the functions. -/
namespace ControlRTT.Kernel.Timer
open ControlRTT.Lib ControlRTT.Lib.CInt

def rtTickMax : Nat := 0xFFFFFFFF

/-- Whether `RT_TIMER_FLAG_SOFT_TIMER` is set, which says what list a timer goes to. -/
inductive Kind where
  | hard
  | soft
  deriving DecidableEq, Repr

structure RtTimer where
  initTick : Nat
  timeoutTick : Nat := 0
  kind : Kind := .hard
  periodic : Bool := false
  activated : Bool := false
  deriving DecidableEq, Repr

/-- The rows of a list have `RT_TIMER_SKIP_LIST_LEVEL` as their number. -/
structure Timers (Id : Type) where
  timer : Id → RtTimer
  rows : Kind → List (List Id)
  randomNr : Nat := 0
  /-- `RT_TIMER_SKIP_LIST_MASK` -/
  mask : Nat := 0x3

/-- Where `rt_timer_check` is: not called, at the head of its loop, or in the timeout
function of a timer. -/
inductive Check (Id : Type) where
  | out
  | loop (currentTick : Nat)
  | callback (t : Id)
  deriving DecidableEq

variable {Id : Type} [DecidableEq Id]

/-- All timers initialized and none started; `above` is one less than
`RT_TIMER_SKIP_LIST_LEVEL`. -/
def rtTimerInit (above mask : Nat) (timer : Id → RtTimer) : Timers Id where
  timer t := { timer t with timeoutTick := 0, activated := false }
  rows _ := List.replicate (above + 1) []
  mask := mask

namespace Timers

def setTimer (s : Timers Id) (t : Id) (b : RtTimer) : Timers Id :=
  { s with timer := fun u => if u = t then b else s.timer u }

def setActivated (s : Timers Id) (t : Id) (b : Bool) : Timers Id :=
  s.setTimer t { s.timer t with activated := b }

/-- `_rt_timer_remove`: the nodes of `t` are taken out of whatever rows they are in. -/
def rtTimerRemove (s : Timers Id) (t : Id) : Timers Id :=
  { s with rows := fun k => SkipList.remove t (s.rows k) }

/-- The first critical section of `rt_timer_start`. -/
def startDetach (s : Timers Id) (t : Id) : Timers Id :=
  (s.rtTimerRemove t).setActivated t false

/-- The timeout tick of a timer that is being started. -/
def startStamp (s : Timers Id) (tick : Nat) (t : Id) : Timers Id :=
  s.setTimer t { s.timer t with timeoutTick := u32 (tick + (s.timer t).initTick) }

/-- The walk through a row stops before such a timer. -/
def later (s : Timers Id) (t u : Id) : Bool :=
  let diff := usub (s.timer u).timeoutTick (s.timer t).timeoutTick
  diff ≠ 0 && diff < rtTickMax / 2

/-- The number of rows a timer is put into, from the bits of the insert counter;
`more` are the rows above the base. -/
def height (mask : Nat) : Nat → Nat → Nat
  | 0, _ => 1
  | more + 1, tstNr =>
    if tstNr &&& mask = 0 then height mask more (tstNr >>> ((mask + 1) >>> 1)) + 1 else 1

/-- The second critical section of `rt_timer_start`. -/
def startLink (s : Timers Id) (t : Id) : Timers Id :=
  let kind := (s.timer t).kind
  let randomNr := u32 (s.randomNr + 1)
  let rows := SkipList.link (s.later t) t (height s.mask ((s.rows kind).length - 1) randomNr)
    none (s.rows kind)
  { s with
    rows := fun k => if k = kind then rows else s.rows k
    randomNr := randomNr }.setActivated t true

/-- A start that nothing interrupts. -/
def rtTimerStart (s : Timers Id) (tick : Nat) (t : Id) : Timers Id :=
  ((s.startDetach t).startStamp tick t).startLink t

/-- The value is whether the call returns `RT_EOK`. -/
def rtTimerStop (s : Timers Id) (t : Id) : Timers Id × Bool :=
  if (s.timer t).activated = false then (s, false)
  else ((s.rtTimerRemove t).setActivated t false, true)

/-- `rt_timer_control` with `RT_TIMER_CTRL_SET_TIME`. -/
def controlSetTime (s : Timers Id) (t : Id) (time : Nat) : Timers Id :=
  s.setTimer t { s.timer t with initTick := time }

/-- `rt_timer_control` with `RT_TIMER_CTRL_SET_ONESHOT` or `RT_TIMER_CTRL_SET_PERIODIC`. -/
def controlSetPeriodic (s : Timers Id) (t : Id) (periodic : Bool) : Timers Id :=
  s.setTimer t { s.timer t with periodic := periodic }

/-- The test of both check loops. -/
def Reached (s : Timers Id) (currentTick : Nat) (t : Id) : Prop :=
  usub currentTick (s.timer t).timeoutTick < rtTickMax / 2

instance (s : Timers Id) (currentTick : Nat) (t : Id) : Decidable (s.Reached currentTick t) :=
  inferInstanceAs (Decidable (_ < _))

/-- What both check loops do once the timeout function has returned. -/
def afterTimeout (s : Timers Id) (tick : Nat) (t : Id) : Timers Id :=
  if (s.timer t).periodic ∧ (s.timer t).activated then
    (s.setActivated t false).rtTimerStart tick t
  else s.setActivated t false

/-- The last row of a list, which holds all its timers. -/
def list (s : Timers Id) (kind : Kind) : List Id := SkipList.base (s.rows kind)

def Linked (s : Timers Id) (t : Id) : Prop := t ∈ s.list (s.timer t).kind

instance (s : Timers Id) (t : Id) : Decidable (s.Linked t) :=
  inferInstanceAs (Decidable (_ ∈ _))

/-- The saved successor of a node: a node that has been taken out is its own successor. -/
def softNext (s : Timers Id) (t : Id) : Option Id :=
  if t ∈ s.list .soft then (SkipList.after (s.list .soft) (some t)).head? else some t

/-! ## The lists stay skip lists -/

structure Ok (s : Timers Id) : Prop where
  rows : ∀ k, SkipList.Ok (s.rows k)
  levels : ∀ k, s.rows k ≠ []
  kind : ∀ k, ∀ t ∈ s.list k, (s.timer t).kind = k

@[simp] theorem setTimer_self (s : Timers Id) (t : Id) (b : RtTimer) :
    (s.setTimer t b).timer t = b := if_pos rfl

theorem setTimer_ne (s : Timers Id) {t u : Id} (b : RtTimer) (h : u ≠ t) :
    (s.setTimer t b).timer u = s.timer u := if_neg h

@[simp] theorem setTimer_rows (s : Timers Id) (t : Id) (b : RtTimer) :
    (s.setTimer t b).rows = s.rows := rfl

@[simp] theorem setActivated_rows (s : Timers Id) (t : Id) (b : Bool) :
    (s.setActivated t b).rows = s.rows := rfl

@[simp] theorem setActivated_self (s : Timers Id) (t : Id) (b : Bool) :
    (s.setActivated t b).timer t = { s.timer t with activated := b } := if_pos rfl

theorem setActivated_ne (s : Timers Id) {t u : Id} (b : Bool) (h : u ≠ t) :
    (s.setActivated t b).timer u = s.timer u := if_neg h

theorem kind_setTimer (s : Timers Id) {t : Id} {b : RtTimer} (hb : b.kind = (s.timer t).kind)
    (u : Id) : ((s.setTimer t b).timer u).kind = (s.timer u).kind := by
  by_cases hut : u = t
  · subst hut
    rw [setTimer_self, hb]
  · rw [setTimer_ne s b hut]

theorem linked_setTimer (s : Timers Id) {t : Id} {b : RtTimer}
    (hb : b.kind = (s.timer t).kind) (u : Id) : (s.setTimer t b).Linked u ↔ s.Linked u := by
  unfold Linked
  rw [kind_setTimer s hb]
  rfl

theorem Ok.setTimer {s : Timers Id} (h : s.Ok) {t : Id} {b : RtTimer}
    (hb : b.kind = (s.timer t).kind) : (s.setTimer t b).Ok where
  rows := h.rows
  levels := h.levels
  kind k u hu := (kind_setTimer s hb u).trans (h.kind k u hu)

theorem linked_setActivated (s : Timers Id) (t : Id) (b : Bool) (u : Id) :
    (s.setActivated t b).Linked u ↔ s.Linked u :=
  linked_setTimer s (by rfl) u

theorem Ok.setActivated {s : Timers Id} (h : s.Ok) (t : Id) (b : Bool) :
    (s.setActivated t b).Ok := h.setTimer rfl

theorem Ok.linked_rtTimerRemove {s : Timers Id} (h : s.Ok) (t u : Id) :
    (s.rtTimerRemove t).Linked u ↔ u ≠ t ∧ s.Linked u :=
  (h.rows (s.timer u).kind).mem_base_remove t u

theorem Ok.rtTimerRemove {s : Timers Id} (h : s.Ok) (t : Id) : (s.rtTimerRemove t).Ok where
  rows k := (h.rows k).remove t
  levels k := fun he => h.levels k (List.map_eq_nil_iff.mp he)
  kind k u hu := h.kind k u (((h.rows k).mem_base_remove t u).mp hu).2

theorem height_pos (mask more tstNr : Nat) : 0 < height mask more tstNr := by
  cases more with
  | zero => exact Nat.one_pos
  | succ more =>
    rw [height]
    split
    · exact Nat.succ_pos _
    · exact Nat.one_pos

/-- The rows of the timer's own list after the second section. -/
theorem startLink_rows_self (s : Timers Id) (t : Id) :
    (s.startLink t).rows (s.timer t).kind =
      SkipList.link (s.later t) t
        (height s.mask ((s.rows (s.timer t).kind).length - 1) (u32 (s.randomNr + 1))) none
        (s.rows (s.timer t).kind) := if_pos rfl

theorem startLink_rows_ne (s : Timers Id) (t : Id) {k : Kind} (hk : k ≠ (s.timer t).kind) :
    (s.startLink t).rows k = s.rows k := if_neg hk

theorem startLink_timer_self (s : Timers Id) (t : Id) :
    (s.startLink t).timer t = { s.timer t with activated := true } := if_pos rfl

theorem startLink_timer_ne (s : Timers Id) {t u : Id} (h : u ≠ t) :
    (s.startLink t).timer u = s.timer u := if_neg h

theorem kind_startLink (s : Timers Id) (t u : Id) :
    ((s.startLink t).timer u).kind = (s.timer u).kind := by
  by_cases hut : u = t
  · subst hut
    rw [startLink_timer_self]
  · rw [startLink_timer_ne s hut]

theorem Ok.mem_list_startLink {s : Timers Id} (h : s.Ok) (t : Id) (k : Kind) (u : Id) :
    u ∈ (s.startLink t).list k ↔ (u = t ∧ k = (s.timer t).kind) ∨ u ∈ s.list k := by
  by_cases hk : k = (s.timer t).kind
  · subst hk
    unfold list
    rw [startLink_rows_self, (h.rows _).mem_base_link (h.levels _) _ _ (height_pos _ _ _)]
    simp
  · unfold list
    rw [startLink_rows_ne s t hk]
    simp [hk]

theorem Ok.linked_startLink {s : Timers Id} (h : s.Ok) (t u : Id) :
    (s.startLink t).Linked u ↔ u = t ∨ s.Linked u := by
  unfold Linked
  rw [kind_startLink, h.mem_list_startLink]
  by_cases hut : u = t
  · subst hut
    simp
  · simp [hut]

theorem Ok.startLink {s : Timers Id} (h : s.Ok) {t : Id} (ht : ¬ s.Linked t) :
    (s.startLink t).Ok where
  rows k := by
    by_cases hk : k = (s.timer t).kind
    · subst hk
      rw [startLink_rows_self]
      exact (h.rows _).link _ _ ht
    · rw [startLink_rows_ne s t hk]
      exact h.rows k
  levels k := by
    by_cases hk : k = (s.timer t).kind
    · subst hk
      rw [startLink_rows_self, ← List.length_pos_iff, SkipList.length_link]
      exact List.length_pos_iff.mpr (h.levels _)
    · rw [startLink_rows_ne s t hk]
      exact h.levels k
  kind k u hu := by
    rw [kind_startLink]
    obtain ⟨rfl, rfl⟩ | hu := (h.mem_list_startLink t k u).mp hu
    · rfl
    · exact h.kind k u hu

theorem Ok.startDetach {s : Timers Id} (h : s.Ok) (t : Id) : (s.startDetach t).Ok :=
  (h.rtTimerRemove t).setActivated t false

theorem Ok.linked_startDetach {s : Timers Id} (h : s.Ok) (t u : Id) :
    (s.startDetach t).Linked u ↔ u ≠ t ∧ s.Linked u :=
  (linked_setActivated _ t false u).trans (h.linked_rtTimerRemove t u)

theorem linked_startStamp (s : Timers Id) (tick : Nat) (t u : Id) :
    (s.startStamp tick t).Linked u ↔ s.Linked u :=
  linked_setTimer s (by rfl) u

theorem Ok.notLinked_stamped {s : Timers Id} (h : s.Ok) (tick : Nat) (t : Id) :
    ¬ ((s.startDetach t).startStamp tick t).Linked t := by
  rw [linked_startStamp, h.linked_startDetach]
  exact fun hl => hl.1 rfl

theorem Ok.stamped {s : Timers Id} (h : s.Ok) (tick : Nat) (t : Id) :
    ((s.startDetach t).startStamp tick t).Ok := (h.startDetach t).setTimer rfl

theorem Ok.rtTimerStart {s : Timers Id} (h : s.Ok) (tick : Nat) (t : Id) :
    (s.rtTimerStart tick t).Ok := (h.stamped tick t).startLink (h.notLinked_stamped tick t)

/-- A start links the timer and leaves the others where they are. -/
theorem Ok.linked_rtTimerStart {s : Timers Id} (h : s.Ok) (tick : Nat) (t u : Id) :
    (s.rtTimerStart tick t).Linked u ↔ u = t ∨ s.Linked u := by
  unfold Timers.rtTimerStart
  rw [(h.stamped tick t).linked_startLink, linked_startStamp, h.linked_startDetach]
  by_cases hut : u = t
  · simp [hut]
  · simp [hut]

theorem rtTimerStart_self (s : Timers Id) (tick : Nat) (t : Id) :
    (s.rtTimerStart tick t).timer t = { s.timer t with
      timeoutTick := u32 (tick + (s.timer t).initTick), activated := true } := by
  unfold rtTimerStart
  rw [startLink_timer_self, startStamp, setTimer_self, startDetach, setActivated_self]
  rfl

theorem rtTimerStart_ne (s : Timers Id) (tick : Nat) {t u : Id} (h : u ≠ t) :
    (s.rtTimerStart tick t).timer u = s.timer u := by
  unfold rtTimerStart
  rw [startLink_timer_ne _ h, startStamp, setTimer_ne _ _ h, startDetach,
    setActivated_ne _ _ h]
  rfl

theorem list_rtTimerRemove (s : Timers Id) (t : Id) (k : Kind) :
    (s.rtTimerRemove t).list k = (s.list k).erase t := SkipList.base_remove t (s.rows k)

/-- A start takes the timer out of both lists and puts it into its own. -/
theorem Ok.perm_list_rtTimerStart {s : Timers Id} (h : s.Ok) (tick : Nat) (t : Id) (k : Kind) :
    ((s.rtTimerStart tick t).list k).Perm
      (if k = (s.timer t).kind then t :: (s.list k).erase t else (s.list k).erase t) := by
  have hok := h.stamped tick t
  have hlist : ((s.startDetach t).startStamp tick t).list k = (s.list k).erase t :=
    list_rtTimerRemove s t k
  have hkind : (((s.startDetach t).startStamp tick t).timer t).kind = (s.timer t).kind := by
    rw [startStamp, setTimer_self, Timers.startDetach, setActivated_self]
    rfl
  rw [← hlist, ← hkind]
  unfold Timers.rtTimerStart
  split
  · rename_i hk
    subst hk
    unfold list
    rw [startLink_rows_self]
    obtain ⟨front, back, hb, -, hl⟩ := (hok.rows _).base_link (hok.levels _)
      (Timers.later ((s.startDetach t).startStamp tick t) t) t (height_pos _ _ _)
    rw [hl, hb]
    exact List.perm_middle
  · rename_i hk
    unfold list
    rw [startLink_rows_ne _ t hk]

omit [DecidableEq Id] in
theorem list_rtTimerInit (above mask : Nat) (timer : Id → RtTimer) (k : Kind) :
    (rtTimerInit above mask timer).list k = [] := by
  have hne : List.replicate (above + 1) ([] : List Id) ≠ [] := List.cons_ne_nil _ _
  exact (List.mem_replicate.mp (SkipList.base_mem hne)).2

omit [DecidableEq Id] in
theorem ok_rtTimerInit (above mask : Nat) (timer : Id → RtTimer) :
    (rtTimerInit above mask timer).Ok where
  rows _ := ⟨List.pairwise_replicate.mpr (.inr (List.Sublist.refl _)), fun row hrow => by
    rw [(List.mem_replicate.mp hrow).2]
    exact .nil⟩
  levels _ := List.cons_ne_nil _ _
  kind k t ht := by
    rw [list_rtTimerInit] at ht
    cases ht

end Timers

end ControlRTT.Kernel.Timer

import ControlRTT.Lib.Runs
import ControlRTT.Kernel.Thread

/-! # Completions (completion.c)

One thread waits for a completion at a time, and clears its flag when the wait is over, however it
has ended. The signals are the calls of `rt_completion_done` that set the flag. A signal that
finds a waiter is handed over to it, and leaves the flag set until that waiter runs; one that finds
none leaves it set for the next wait. Since a wait does not ask which of the two it has before it,
signals get lost and are taken twice (`delivered_throughout_iff`). -/
namespace ControlRTT.Drivers.Completion
open ControlRTT.Lib.Runs ControlRTT.Kernel.Thread

inductive Flag where
  | uncompleted
  | completed
  deriving DecidableEq, Repr

/-- The suspended list is that of the waiters. `leaving` are the threads that have read their
result behind `rt_schedule` and have still to clear the flag. -/
structure RtCompletion (Thread : Type) where
  flag : Flag := .uncompleted
  waiters : Waiters Thread
  leaving : List (Thread × Err) := []

variable {Thread : Type} [DecidableEq Thread]

namespace RtCompletion

/-- The thread goes to the end of the suspended list. -/
def suspendSelf (c : RtCompletion Thread) (t : Thread) (timeout : Int) : RtCompletion Thread :=
  if timeout > 0 then
    { c with
      waiters := ((c.waiters.setError t .eok).rtIpcListSuspend .fifo t).startTimer t }
  else { c with waiters := (c.waiters.setError t .eok).rtIpcListSuspend .fifo t }

/-- `rt_completion_wait` up to its return, or up to `rt_schedule` if it has to wait (the inner
`none`). The call stops at its assertion when another thread is on the list. -/
def rtCompletionWait (c : RtCompletion Thread) (t : Thread) (timeout : Int) :
    Option (RtCompletion Thread × Option Err) :=
  if c.flag ≠ .completed then
    if c.waiters.suspendThread ≠ [] then none
    else if timeout = 0 then some (c, some .etimeout)
    else some (c.suspendSelf t timeout, none)
  else some ({ c with flag := .uncompleted }, some .eok)

/-- The result is read with interrupts on. -/
def readResult (c : RtCompletion Thread) (t : Thread) : RtCompletion Thread :=
  { c with
    waiters := c.waiters.runAgain t
    leaving := c.leaving ++ [(t, (c.waiters.tcb t).error)] }

/-- The last critical section of a call that had to wait. -/
def clear (c : RtCompletion Thread) (t : Thread) (result : Err) : RtCompletion Thread :=
  { c with flag := .uncompleted, leaving := c.leaving.erase (t, result) }

/-- The critical section of `rt_completion_done`. -/
def done (c : RtCompletion Thread) : RtCompletion Thread :=
  if c.waiters.suspendThread ≠ [] then
    { c with flag := .completed, waiters := c.waiters.rtIpcListResume }
  else { c with flag := .completed }

/-- The thread can call. -/
def Outside (c : RtCompletion Thread) (t : Thread) : Prop :=
  c.waiters.Running t ∧ t ∉ c.leaving.map Prod.fst

instance (c : RtCompletion Thread) (t : Thread) : Decidable (c.Outside t) :=
  inferInstanceAs (Decidable (_ ∧ _))

/-- The thread's wait is over and will return this. -/
def Returns (c : RtCompletion Thread) (t : Thread) (result : Err) : Prop :=
  t ∈ c.waiters.resumed ∧ (c.waiters.tcb t).error = result ∨ (t, result) ∈ c.leaving

end RtCompletion

inductive Event (Thread : Type) where
  | wait (t : Thread) (timeout : Int)
  | test
  | done
  | timeout (t : Thread)
  | run (t : Thread)
  | finish (t : Thread) (result : Err)

/-- A completion, and what has become of its signals, which are numbered. `tested` is the number
of calls of `rt_completion_done` between their test of the flag and their critical section;
`handed` are the signals that have resumed a waiter that has not returned, `taken` those for which
a wait has returned `RT_EOK`. -/
structure Observed (Thread : Type) where
  completion : RtCompletion Thread
  tested : Nat := 0
  signals : Nat := 0
  handed : List (Thread × Nat) := []
  taken : List Nat := []

namespace Observed

/-- A wait that finds the flag takes the signal that has set it, which is the last one. -/
def waiting (o : Observed Thread) (result : RtCompletion Thread × Option Err) : Observed Thread :=
  if result.2 = some .eok then
    { o with completion := result.1, taken := o.taken ++ [o.signals - 1] }
  else { o with completion := result.1 }

/-- A call that finds the flag set in its critical section is no signal. -/
def signalling (o : Observed Thread) : Observed Thread :=
  if o.completion.flag = .completed then
    { o with completion := o.completion.done, tested := o.tested - 1 }
  else
    { o with
      completion := o.completion.done
      tested := o.tested - 1
      signals := o.signals + 1
      handed := o.handed ++
        o.completion.waiters.suspendThread.head?.toList.map fun t => (t, o.signals) }

def finishing (o : Observed Thread) (t : Thread) (result : Err) : Observed Thread :=
  if result = .eok then
    { o with
      completion := o.completion.clear t result
      handed := o.handed.filter fun p => p.1 ≠ t
      taken := o.taken ++ (o.handed.filter fun p => p.1 = t).map Prod.snd }
  else { o with completion := o.completion.clear t result }

/-- The signals for which a wait has returned or is to return `RT_EOK`. -/
def consumed (o : Observed Thread) : List Nat := o.taken ++ o.handed.map Prod.snd

end Observed

/-- Only a running thread waits, only a started timer fires, and only a resumed thread comes back
from `rt_schedule`. Anyone may signal. -/
def step (o : Observed Thread) : Event Thread → Option (Observed Thread)
  | .wait t timeout =>
    if o.completion.Outside t then (o.completion.rtCompletionWait t timeout).map o.waiting
    else none
  | .test =>
    some (if o.completion.flag = .completed then o else { o with tested := o.tested + 1 })
  | .done => if 0 < o.tested then some o.signalling else none
  | .timeout t =>
    if (o.completion.waiters.tcb t).timer then
      some { o with completion :=
        { o.completion with waiters := o.completion.waiters.rtThreadTimeout t } }
    else none
  | .run t =>
    if t ∈ o.completion.waiters.resumed then
      some { o with completion := o.completion.readResult t }
    else none
  | .finish t result =>
    if (t, result) ∈ o.completion.leaving then some (o.finishing t result) else none

/-- `rt_completion_init` -/
def start (priority : Thread → Nat) : Observed Thread where
  completion := { waiters := Waiters.idle priority }

/-- Each signal has been consumed by one wait, or it is the last one and the completion is done
for the next wait. A wait that a signal has been handed over to will return `RT_EOK`. -/
structure Delivered (o : Observed Thread) : Prop where
  once : ∀ k < o.signals, o.consumed.count k = 1 ∨
    o.consumed.count k = 0 ∧ o.completion.flag = .completed ∧ k + 1 = o.signals
  returns : ∀ p ∈ o.handed, o.completion.Returns p.1 .eok

/-- The done that has set the flag has resumed a waiter, which has not returned. -/
def HandedOver (o : Observed Thread) : Prop := ∃ t, (t, o.signals - 1) ∈ o.handed

/-- A wait that comes back from `rt_schedule` finds the flag clear or set by a done that has
resumed a waiter; a wait that begins finds it clear or set by one that has not. -/
def Matches (o : Observed Thread) : Event Thread → Prop
  | .wait _ _ => o.completion.flag = .completed → ¬ HandedOver o
  | .finish _ _ => o.completion.flag = .completed → HandedOver o
  | _ => True

/-! ## What every step keeps -/

structure Inv (o : Observed Thread) : Prop extends Delivered o where
  ok : o.completion.waiters.Ok
  single : o.completion.waiters.suspendThread.length ≤ 1
  nobody : o.completion.flag = .completed → o.completion.waiters.suspendThread = []
  signalled : o.completion.flag = .completed → 0 < o.signals
  untaken : o.completion.flag = .completed → o.signals - 1 ∉ o.taken
  numbered : ∀ k ∈ o.consumed, k < o.signals

omit [DecidableEq Thread] in
theorem inv_start (priority : Thread → Nat) : Inv (start priority) where
  once _ h := nomatch h
  returns _ h := nomatch h
  ok := Waiters.ok_idle priority
  single := Nat.zero_le 1
  nobody h := nomatch h
  signalled h := nomatch h
  untaken h := nomatch h
  numbered _ h := nomatch h

/-- A wait finds nobody on the list and goes there, or it returns at once. -/
theorem wait_cases {o o' : Observed Thread} {t : Thread} {timeout : Int}
    (h : (o.completion.rtCompletionWait t timeout).map o.waiting = some o') :
    (o.completion.flag ≠ .completed ∧ o.completion.waiters.suspendThread = [] ∧
      (o' = o ∨ o' = { o with completion := o.completion.suspendSelf t timeout })) ∨
    (o.completion.flag = .completed ∧
      o' = { o with
        completion := { o.completion with flag := .uncompleted }
        taken := o.taken ++ [o.signals - 1] }) := by
  unfold RtCompletion.rtCompletionWait at h
  split at h
  · rename_i hflag
    split at h
    · cases h
    · rename_i hempty
      refine .inl ⟨hflag, not_not.mp hempty, ?_⟩
      split at h
      · exact .inl (Option.some.inj h).symm
      · exact .inr (Option.some.inj h).symm
  · rename_i hflag
    exact .inr ⟨not_not.mp hflag, (Option.some.inj h).symm⟩

theorem suspendSelf_eq {c : RtCompletion Thread} {t : Thread} (ht : c.waiters.Running t)
    (timeout : Int) : ∃ b : Tcb, b.stat = .suspend ∧ b.error = .eok ∧
      c.suspendSelf t timeout =
        { c with waiters :=
          { c.waiters.setTcb t b with
            suspendThread := c.waiters.suspendThread ++ [t] } } := by
  have hsusp : (c.waiters.setError t .eok).rtIpcListSuspend .fifo t =
      { c.waiters.setTcb t
          { c.waiters.tcb t with stat := .suspend, error := .eok, timer := false } with
        suspendThread := c.waiters.suspendThread ++ [t] } := by
    unfold Waiters.rtIpcListSuspend Waiters.rtThreadSuspend Waiters.setError
    rw [Waiters.setTcb_self, if_neg (not_not_intro ht.1), Waiters.setTcb_setTcb]
    rfl
  unfold RtCompletion.suspendSelf
  split
  · rw [hsusp, Waiters.startTimer_setTcb]
    exact ⟨_, rfl, rfl, rfl⟩
  · exact ⟨_, rfl, rfl, congrArg (fun w => { c with waiters := w }) hsusp⟩

/-- One more signal is consumed, and each of the others has been. -/
theorem count_consuming {l consumed : List Nat} {j n : Nat} (hl : l.Perm (j :: consumed))
    (hj : j ∉ consumed) (hothers : ∀ k, k ≠ j → k < n → consumed.count k = 1) {k : Nat}
    (hk : k < n) : l.count k = 1 := by
  rw [hl.count_eq]
  by_cases hkj : k = j
  · rw [hkj, List.count_cons_self, List.count_eq_zero.mpr hj]
  · rw [List.count_cons_of_ne (Ne.symm hkj), hothers k hkj hk]

namespace Inv
variable {o : Observed Thread}

omit [DecidableEq Thread] in
/-- Changes to the threads. -/
theorem move (h : Inv o) {c : RtCompletion Thread} (hflag : c.flag = o.completion.flag)
    (hok : c.waiters.Ok) (hsingle : c.waiters.suspendThread.length ≤ 1)
    (hnobody : c.flag = .completed → c.waiters.suspendThread = [])
    (hreturns : ∀ p ∈ o.handed, o.completion.Returns p.1 .eok → c.Returns p.1 .eok) :
    Inv { o with completion := c } where
  once k hk := (h.once k hk).imp_right fun ⟨hc, hf, hl⟩ => ⟨hc, hflag.trans hf, hl⟩
  returns p hp := hreturns p hp (h.returns p hp)
  ok := hok
  single := hsingle
  nobody := hnobody
  signalled hf := h.signalled (hflag ▸ hf)
  untaken hf := h.untaken (hflag ▸ hf)
  numbered := h.numbered

theorem suspended (h : Inv o) {t : Thread} (ht : o.completion.Outside t)
    (hflag : o.completion.flag ≠ .completed) (hempty : o.completion.waiters.suspendThread = [])
    (timeout : Int) : Inv { o with completion := o.completion.suspendSelf t timeout } := by
  obtain ⟨b, hstat, herr, heq⟩ := suspendSelf_eq ht.1 timeout
  rw [heq]
  refine h.move rfl (h.ok.suspended ht.1 hstat herr (List.perm_append_singleton t _)) ?_
    (fun hf => absurd hf hflag) fun p hp hret => hret.imp_left fun ⟨hmem, he⟩ => ⟨hmem, ?_⟩
  · rw [hempty]
    rfl
  · have hne : p.1 ≠ t := fun hpt => ht.1.2 (hpt ▸ hmem)
    exact (congrArg Tcb.error (o.completion.waiters.setTcb_ne b hne)).trans he

theorem timeout (h : Inv o) {t : Thread} (ht : (o.completion.waiters.tcb t).timer = true) :
    Inv { o with completion :=
      { o.completion with waiters := o.completion.waiters.rtThreadTimeout t } } := by
  have hmem := h.ok.timer t ht
  refine h.move rfl (h.ok.rtThreadTimeout hmem) ?_ (fun hf => ?_) fun p hp hret =>
    hret.imp_left fun ⟨hres, he⟩ => ⟨List.mem_append_left [t] hres, ?_⟩
  · exact List.erase_sublist.length_le.trans h.single
  · rw [h.nobody hf] at hmem
    cases hmem
  · have hne : p.1 ≠ t := fun hpt => h.ok.notMem_resumed hmem (hpt ▸ hres)
    exact (congrArg Tcb.error (o.completion.waiters.setTcb_ne _ hne)).trans he

theorem run (h : Inv o) {t : Thread} :
    Inv { o with completion := o.completion.readResult t } := by
  refine h.move rfl (h.ok.runAgain t) h.single h.nobody fun p hp hret => ?_
  obtain ⟨hres, he⟩ | hleave := hret
  · by_cases hpt : p.1 = t
    · refine .inr (List.mem_append_right _ (List.mem_singleton.mpr ?_))
      rw [hpt] at he
      rw [hpt, he]
    · exact .inl ⟨(List.mem_erase_of_ne hpt).mpr hres, he⟩
  · exact .inr (List.mem_append_left _ hleave)

omit [DecidableEq Thread] in
/-- While the completion is not done, every signal has been consumed. -/
theorem count_eq_one (h : Inv o) (hflag : o.completion.flag ≠ .completed) {k : Nat}
    (hk : k < o.signals) : o.consumed.count k = 1 :=
  (h.once k hk).resolve_right fun hr => hflag hr.2.1

omit [DecidableEq Thread] in
/-- The signal the flag is set by can only have been consumed by a waiter still to return. -/
theorem handedOver_iff (h : Inv o) (hflag : o.completion.flag = .completed) :
    HandedOver o ↔ o.signals - 1 ∈ o.consumed := by
  unfold HandedOver Observed.consumed
  constructor
  · intro ⟨t, ht⟩
    exact List.mem_append_right _ (List.mem_map_of_mem ht)
  · intro hmem
    obtain ⟨p, hp, hk⟩ := List.mem_map.mp
      ((List.mem_append.mp hmem).resolve_left (h.untaken hflag))
    exact ⟨p.1, hk ▸ hp⟩

omit [DecidableEq Thread] in
theorem signals_notMem (h : Inv o) : o.signals ∉ o.consumed :=
  fun hmem => Nat.lt_irrefl _ (h.numbered _ hmem)

/-- A call that finds the flag set changes nothing. -/
theorem signal_again (h : Inv o) (hflag : o.completion.flag = .completed) :
    Inv o.signalling := by
  unfold Observed.signalling RtCompletion.done
  rw [if_pos hflag, if_neg (not_not_intro (h.nobody hflag))]
  refine ⟨⟨fun k hk => ?_, h.returns⟩, h.ok, h.single, fun _ => h.nobody hflag,
    fun _ => h.signalled hflag, fun _ => h.untaken hflag, h.numbered⟩
  exact (h.once k hk).imp_right fun ⟨hc, _, hl⟩ => ⟨hc, rfl, hl⟩

/-- With nobody on the list the signal is for the next wait. -/
theorem signal_next (h : Inv o) (hflag : o.completion.flag ≠ .completed)
    (hl : o.completion.waiters.suspendThread = []) : Inv o.signalling := by
  unfold Observed.signalling RtCompletion.done
  rw [if_neg hflag, hl, if_neg (not_not_intro rfl), List.head?_nil, Option.toList_none,
    List.map_nil, List.append_nil]
  refine ⟨⟨fun k hk => ?_, h.returns⟩, h.ok, h.single, fun _ => hl, fun _ => Nat.succ_pos _,
    fun _ hmem => h.signals_notMem (List.mem_append_left _ hmem),
    fun k hk => Nat.lt_succ_of_lt (h.numbered k hk)⟩
  obtain hk | rfl := Nat.lt_succ_iff_lt_or_eq.mp hk
  · exact .inl (h.count_eq_one hflag hk)
  · exact .inr ⟨List.count_eq_zero.mpr h.signals_notMem, rfl, rfl⟩

/-- The waiter on the list is resumed, and the signal is handed to it. -/
theorem signal_waiter (h : Inv o) (hflag : o.completion.flag ≠ .completed) {t : Thread}
    (hl : o.completion.waiters.suspendThread = [t]) : Inv o.signalling := by
  have hmem : t ∈ o.completion.waiters.suspendThread := hl ▸ List.mem_cons_self
  have hok := h.ok.rtIpcListResume
  have heq := h.ok.rtIpcListResume_cons hl
  rw [heq] at hok
  have hperm : (o.taken ++ (o.handed ++ [(t, o.signals)]).map Prod.snd).Perm
      (o.signals :: o.consumed) := by
    rw [List.map_append, ← List.append_assoc]
    exact List.perm_append_singleton _ _
  unfold Observed.signalling RtCompletion.done
  rw [if_neg hflag, hl, if_pos (List.cons_ne_nil t []), List.head?_cons, Option.toList_some,
    List.map_singleton, heq]
  refine ⟨⟨fun k hk => .inl (count_consuming hperm h.signals_notMem (fun k' hne hk' => ?_) hk),
      fun p hp => ?_⟩, hok, Nat.zero_le 1, fun _ => rfl, fun _ => Nat.succ_pos _,
    fun _ hmem => h.signals_notMem (List.mem_append_left _ hmem), fun k hk => ?_⟩
  · exact h.count_eq_one hflag (Nat.lt_of_le_of_ne (Nat.le_of_lt_succ hk') hne)
  · obtain hp | hp := List.mem_append.mp hp
    · refine (h.returns p hp).imp_left fun ⟨hres, he⟩ => ⟨List.mem_append_left [t] hres, ?_⟩
      have hne : p.1 ≠ t := fun hpt => h.ok.notMem_resumed hmem (hpt ▸ hres)
      exact (congrArg Tcb.error (o.completion.waiters.setTcb_ne _ hne)).trans he
    · rw [List.mem_singleton.mp hp]
      refine .inl ⟨List.mem_append_right _ List.mem_cons_self, ?_⟩
      exact (congrArg Tcb.error (o.completion.waiters.setTcb_self t _)).trans (h.ok.waits t hmem)
  · obtain rfl | hold := List.mem_cons.mp (hperm.mem_iff.mp hk)
    · exact Nat.lt_succ_self _
    · exact Nat.lt_succ_of_lt (h.numbered k hold)

/-- The first call that finds the flag clear sets it, and hands the signal to the waiter, if
there is one. -/
theorem signal (h : Inv o) : Inv o.signalling := by
  by_cases hflag : o.completion.flag = .completed
  · exact h.signal_again hflag
  cases hl : o.completion.waiters.suspendThread with
  | nil => exact h.signal_next hflag hl
  | cons t rest =>
    have hsingle := h.single
    rw [hl, List.length_cons] at hsingle
    obtain rfl : rest = [] :=
      List.length_eq_zero_iff.mp (Nat.le_zero.mp (Nat.le_of_succ_le_succ hsingle))
    exact h.signal_waiter hflag hl

/-- A return passes its signals from one list to the other. -/
theorem consumed_finishing (o : Observed Thread) (t : Thread) (result : Err) :
    (o.finishing t result).consumed.Perm o.consumed := by
  unfold Observed.finishing Observed.consumed
  split
  · rw [List.append_assoc]
    refine List.Perm.append_left _ ?_
    rw [← List.map_append]
    refine List.Perm.map _ ?_
    simpa using List.filter_append_perm (fun p : Thread × Nat => decide (p.1 = t)) o.handed
  · exact .refl _

theorem completion_finishing (o : Observed Thread) (t : Thread) (result : Err) :
    (o.finishing t result).completion = o.completion.clear t result := by
  unfold Observed.finishing
  split
  · rfl
  · rfl

theorem signals_finishing (o : Observed Thread) (t : Thread) (result : Err) :
    (o.finishing t result).signals = o.signals := by
  unfold Observed.finishing
  split
  · rfl
  · rfl

theorem finish (h : Inv o) {t : Thread} {result : Err}
    (hmatches : Matches o (.finish t result)) : Inv (o.finishing t result) := by
  have hperm := consumed_finishing o t result
  have hcompletion := completion_finishing o t result
  have hsignals := signals_finishing o t result
  refine ⟨⟨fun k hk => ?_, fun p hp => ?_⟩, hcompletion ▸ h.ok, hcompletion ▸ h.single,
    fun hf => ?_, fun hf => ?_, fun hf => ?_, fun k hk => ?_⟩
  · rw [hsignals] at hk
    rw [hperm.count_eq]
    refine .inl ((h.once k hk).resolve_right fun ⟨hzero, hflag, hlast⟩ => ?_)
    -- the last signal is not lost: it has resumed a waiter
    have hmem := (h.handedOver_iff hflag).mp (hmatches hflag)
    rw [← hlast, Nat.add_sub_cancel] at hmem
    exact List.count_eq_zero.mp hzero hmem
  · rw [hcompletion]
    have hp' : p ∈ o.handed ∧ (result = .eok → p.1 ≠ t) := by
      unfold Observed.finishing at hp
      split at hp
      · obtain ⟨hp, hpt⟩ := List.mem_filter.mp hp
        exact ⟨hp, fun _ => of_decide_eq_true hpt⟩
      · rename_i hresult
        exact ⟨hp, fun he => absurd he hresult⟩
    refine (h.returns p hp'.1).imp_right fun hleave => (List.mem_erase_of_ne ?_).mpr hleave
    rintro ⟨⟩
    exact hp'.2 rfl rfl
  · rw [hcompletion] at hf
    cases hf
  · rw [hcompletion] at hf
    cases hf
  · rw [hcompletion] at hf
    cases hf
  · rw [hsignals]
    exact h.numbered k (hperm.mem_iff.mp hk)

omit [DecidableEq Thread] in
/-- A wait that finds the flag takes the signal that no waiter has been resumed for. -/
theorem taken (h : Inv o) (hflag : o.completion.flag = .completed) (hnot : ¬ HandedOver o) :
    Inv { o with
      completion := { o.completion with flag := .uncompleted }
      taken := o.taken ++ [o.signals - 1] } := by
  have hpos := h.signalled hflag
  have hnot' := (not_congr (h.handedOver_iff hflag)).mp hnot
  have hperm : ((o.taken ++ [o.signals - 1]) ++ o.handed.map Prod.snd).Perm
      ((o.signals - 1) :: o.consumed) := by
    rw [List.append_assoc]
    exact List.perm_middle
  refine ⟨⟨fun k hk => .inl (count_consuming hperm hnot' (fun k' hne hk' => ?_) hk), h.returns⟩,
    h.ok, h.single, fun hf => (nomatch hf), fun hf => (nomatch hf), fun hf => (nomatch hf),
    fun k hk => ?_⟩
  · exact (h.once k' hk').resolve_right fun ⟨_, _, hl⟩ => hne (Nat.eq_sub_of_add_eq hl)
  · obtain rfl | hold := List.mem_cons.mp (hperm.mem_iff.mp hk)
    · exact Nat.sub_lt hpos Nat.one_pos
    · exact h.numbered k hold

theorem step {o' : Observed Thread} {e : Event Thread} (h : Inv o) (hmatches : Matches o e)
    (hstep : step o e = some o') : Inv o' := by
  cases e with
  | wait t timeout =>
    obtain ⟨ht, hwait⟩ := Option.ite_none_right_eq_some.mp hstep
    obtain ⟨hflag, hempty, rfl | rfl⟩ | ⟨hflag, rfl⟩ := wait_cases hwait
    · exact h
    · exact h.suspended ht hflag hempty timeout
    · exact h.taken hflag (hmatches hflag)
  | test =>
    obtain rfl := Option.some.inj hstep
    split
    · exact h
    · exact ⟨⟨h.once, h.returns⟩, h.ok, h.single, h.nobody, h.signalled, h.untaken, h.numbered⟩
  | done =>
    obtain ⟨-, ⟨⟩⟩ := Option.ite_none_right_eq_some.mp hstep
    exact h.signal
  | timeout t =>
    obtain ⟨ht, ⟨⟩⟩ := Option.ite_none_right_eq_some.mp hstep
    exact h.timeout ht
  | run t =>
    obtain ⟨-, ⟨⟩⟩ := Option.ite_none_right_eq_some.mp hstep
    exact h.run
  | finish t result =>
    obtain ⟨-, ⟨⟩⟩ := Option.ite_none_right_eq_some.mp hstep
    exact h.finish hmatches

/-- A wait that does not match its signal loses it, or takes it once more. -/
theorem matches_of_delivered {o' : Observed Thread} {e : Event Thread} (h : Inv o)
    (hstep : Completion.step o e = some o') (hdelivered : Delivered o') : Matches o e := by
  cases e with
  | wait t timeout =>
    obtain ⟨-, hwait⟩ := Option.ite_none_right_eq_some.mp hstep
    intro hflag hhanded
    obtain ⟨hnot, -⟩ | ⟨-, rfl⟩ := wait_cases hwait
    · exact hnot hflag
    · have hlast : o.signals - 1 < o.signals := Nat.sub_lt (h.signalled hflag) Nat.one_pos
      have hold : 0 < o.consumed.count (o.signals - 1) := List.count_pos_iff.mpr
        ((h.handedOver_iff hflag).mp hhanded)
      have hnew := hdelivered.once _ hlast
      unfold Observed.consumed at hnew hold
      dsimp only at hnew
      rw [List.count_append] at hold
      rw [List.count_append, List.count_append, List.count_singleton_self] at hnew
      omega
  | finish t result =>
    obtain ⟨-, ⟨⟩⟩ := Option.ite_none_right_eq_some.mp hstep
    intro hflag
    have hlast : o.signals - 1 < o.signals := Nat.sub_lt (h.signalled hflag) Nat.one_pos
    have hperm := consumed_finishing o t result
    have hlast' := hlast.trans_eq (signals_finishing o t result).symm
    have hone := (hdelivered.once (o.signals - 1) hlast').resolve_right fun ⟨_, hf, _⟩ => by
      rw [completion_finishing] at hf
      cases hf
    rw [hperm.count_eq] at hone
    exact (h.handedOver_iff hflag).mpr (List.count_pos_iff.mp (Nat.one_pos.trans_eq hone.symm))
  | test | done | timeout | run => trivial

end Inv

/-! ## Whole runs -/

/-- Whatever waiters, signals and timers do, every signal is delivered exactly if each wait
matches the signal it finds the flag set by. -/
theorem delivered_throughout_iff (priority : Thread → Nat) (es : List (Event Thread)) :
    Throughout step Delivered (start priority) es ↔ Along step Matches (start priority) es :=
  throughout_iff_along (fun _ h => h.toDelivered) (fun _ _ _ h hm => h.step hm)
    (fun _ _ _ h => h.matches_of_delivered) (inv_start priority) es

/-- A waiter times out, a signal comes before it runs again, and it clears the flag. -/
theorem signal_lost_after_timeout :
    ¬ Throughout step Delivered (start fun _ : Unit => 10)
      [.wait () 5, .timeout (), .run (), .test, .done, .finish () .etimeout] := fun h => by
  have hafter := (h.2 _ rfl).2 _ rfl |>.2 _ rfl |>.2 _ rfl |>.2 _ rfl |>.2 _ rfl
  have hlost := hafter.once 0 (by decide)
  revert hlost
  decide

end ControlRTT.Drivers.Completion

import ControlRTT.Lib.Runs
import ControlRTT.Kernel.Thread

/-! # Wait queues (waitqueue.c)

A thread that waits links an entry on its own stack to the queue, and removes it itself when it
runs again. When the timer ends the wait, the entry stays linked until then. A wakeup takes the
first entry that its wake function accepts, which the default one always does: if that entry is of
a thread whose wait has ended, no thread is resumed, although others may wait behind it
(`resumes_along_iff`). -/
namespace ControlRTT.Drivers.WaitQueue
open ControlRTT.Lib.Runs ControlRTT.Kernel.Thread

/-- `RT_TICK_PER_SECOND` of rtconfig.h. -/
def rtTickPerSecond : BitVec 32 := 1000

/-- `RT_WAITING_FOREVER` -/
def rtWaitingForever : BitVec 32 := -1

def rtTickFromMillisecond (ms : BitVec 32) : BitVec 32 :=
  if ms.slt 0 then rtWaitingForever else (rtTickPerSecond * ms + 999).sdiv 1000

inductive WqFlag where
  | clean
  | wakeup
  deriving DecidableEq, Repr

/-- A queue with the threads that call it. An entry is named by its thread, whose `tlist` is in
no list while it waits. `removing` are the threads between the last critical section of
`rt_wqueue_wait` and its `rt_wqueue_remove`. -/
structure RtWqueue (Thread : Type) where
  flag : WqFlag := .clean
  waitingList : List Thread := []
  threads : Waiters Thread
  removing : List Thread := []

variable {Thread : Type} [DecidableEq Thread]

omit [DecidableEq Thread] in
/-- `__wqueue_default_wake` -/
def wqueueDefaultWake (_wait : Thread) (_key : BitVec 32) : Int := 0

/-- The entry at which the loop of a wakeup stops. -/
def firstAccepted (key : BitVec 32) : List Thread → Option Thread
  | [] => none
  | entry :: rest =>
    if wqueueDefaultWake entry key = 0 then some entry else firstAccepted key rest

namespace RtWqueue

def rtWqueueAdd (q : RtWqueue Thread) (t : Thread) : RtWqueue Thread :=
  { q with waitingList := q.waitingList ++ [t] }

def rtWqueueRemove (q : RtWqueue Thread) (t : Thread) : RtWqueue Thread :=
  { q with waitingList := q.waitingList.erase t }

def rtWqueueWakeup (q : RtWqueue Thread) (key : BitVec 32) : RtWqueue Thread :=
  match firstAccepted key q.waitingList with
  | none => { q with flag := .wakeup }
  | some entry =>
    { q with flag := .wakeup, threads := q.threads.rtThreadResume entry }.rtWqueueRemove entry

/-- The thread waits, with its timer or without. -/
def suspendSelf (q : RtWqueue Thread) (t : Thread) (tick : BitVec 32) : RtWqueue Thread :=
  if tick ≠ rtWaitingForever then
    { q with threads := (q.threads.rtThreadSuspend t).startTimer t }
  else { q with threads := q.threads.rtThreadSuspend t }

/-- `rt_wqueue_wait` up to its return, its `rt_schedule`, or its `rt_wqueue_remove`. -/
def rtWqueueWait (q : RtWqueue Thread) (t : Thread) (condition : Bool) (msec : BitVec 32) :
    RtWqueue Thread :=
  if condition ∨ rtTickFromMillisecond msec = 0 then q
  else if q.flag = .wakeup then { q with flag := .clean, removing := t :: q.removing }
  else (q.rtWqueueAdd t).suspendSelf t (rtTickFromMillisecond msec)

/-- From `rt_schedule` to the end of the critical section. -/
def waitAgain (q : RtWqueue Thread) (t : Thread) : RtWqueue Thread :=
  { q with
    flag := .clean
    threads := q.threads.runAgain t
    removing := t :: q.removing }

/-- The `rt_wqueue_remove` at the end of `rt_wqueue_wait`. -/
def waitEnd (q : RtWqueue Thread) (t : Thread) : RtWqueue Thread :=
  { q.rtWqueueRemove t with removing := q.removing.erase t }

/-- The thread's wait has ended, and it has not removed its entry. -/
def Leaving (q : RtWqueue Thread) (t : Thread) : Prop :=
  t ∈ q.threads.resumed ∨ t ∈ q.removing

def stat (q : RtWqueue Thread) (t : Thread) : Stat := (q.threads.tcb t).stat

end RtWqueue

inductive Event (Thread : Type) where
  | wait (t : Thread) (condition : Bool) (msec : BitVec 32)
  | wakeup (key : BitVec 32)
  | timeout (t : Thread)
  | run (t : Thread)
  | remove (t : Thread)

/-- Only a thread outside the call waits, only a started timer fires, and a thread goes on with
its call when it has been made ready. Anyone may wake up. -/
def step (q : RtWqueue Thread) : Event Thread → Option (RtWqueue Thread)
  | .wait t condition msec =>
    if q.threads.Running t ∧ t ∉ q.removing then some (q.rtWqueueWait t condition msec) else none
  | .wakeup key => some (q.rtWqueueWakeup key)
  | .timeout t =>
    if (q.threads.tcb t).timer then some { q with threads := q.threads.rtThreadTimeout t }
    else none
  | .run t => if t ∈ q.threads.resumed then some (q.waitAgain t) else none
  | .remove t => if t ∈ q.removing then some (q.waitEnd t) else none

/-- `rt_wqueue_init` -/
def start (priority : Thread → Nat) : RtWqueue Thread where
  threads := Waiters.idle priority

/-- A wakeup of a queue with a suspended waiter resumes a suspended waiter. -/
def Resumes (q : RtWqueue Thread) : Event Thread → Prop
  | .wakeup key =>
    (∃ u ∈ q.waitingList, q.stat u = .suspend) →
      ∃ u ∈ q.waitingList, q.stat u = .suspend ∧ (q.rtWqueueWakeup key).stat u = .ready
  | _ => True

/-- A wakeup does not find, in front of an entry of a waiting thread, one of a thread whose wait
has ended. -/
def FrontWaits (q : RtWqueue Thread) : Event Thread → Prop
  | .wakeup _ => ∀ t rest, q.waitingList = t :: rest → q.Leaving t → ∀ u ∈ rest, q.Leaving u
  | _ => True

/-! ## What every step keeps -/

/-- The waiters are linked, each once. A linked thread that does not wait has timed out and has
still to remove its entry. -/
structure Ok (q : RtWqueue Thread) : Prop where
  nodup : q.waitingList.Nodup
  unlisted : q.threads.suspendThread = []
  linked : ∀ t, q.stat t = .suspend → t ∈ q.waitingList
  timer : ∀ t, (q.threads.tcb t).timer = true → q.stat t = .suspend
  entry : ∀ t ∈ q.waitingList, q.stat t = .suspend ∨
    (q.threads.tcb t).error = .etimeout ∧ q.Leaving t
  leaving : ∀ t, q.Leaving t → q.stat t = .ready
  once : (q.threads.resumed ++ q.removing).Nodup

omit [DecidableEq Thread] in
theorem ok_start (priority : Thread → Nat) : Ok (start priority) where
  nodup := List.nodup_nil
  unlisted := rfl
  linked _ h := nomatch h
  timer _ h := nomatch h
  entry _ h := nomatch h
  leaving _ h := h.elim (nomatch ·) (nomatch ·)
  once := List.nodup_nil

namespace Ok
variable {q : RtWqueue Thread}

omit [DecidableEq Thread] in
theorem waits_iff (h : Ok q) {t : Thread} (ht : t ∈ q.waitingList) :
    q.stat t = .suspend ↔ ¬ q.Leaving t := by
  constructor
  · intro hs hl
    rw [h.leaving t hl] at hs
    cases hs
  · intro hl
    exact (h.entry t ht).resolve_right fun hr => hl hr.2

/-- A waiting thread becomes ready. It stays linked only if its timer has ended the wait. -/
theorem readied (h : Ok q) {t : Thread} (ht : q.stat t = .suspend) {b : Tcb}
    (hstat : b.stat = .ready) (htimer : b.timer = false) (flag : WqFlag) {l : List Thread}
    (hsub : l.Sublist q.waitingList) (hrest : ∀ u ∈ q.waitingList, u ≠ t → u ∈ l)
    (herr : t ∈ l → b.error = .etimeout) :
    Ok { q with
      flag := flag
      waitingList := l
      threads := { q.threads.setTcb t b with
        suspendThread := q.threads.suspendThread.erase t
        resumed := q.threads.resumed ++ [t] } } := by
  have hnot : ¬ q.Leaving t := fun hl => by
    rw [h.leaving t hl] at ht
    cases ht
  have hself : (q.threads.setTcb t b).tcb t = b := q.threads.setTcb_self t b
  have hne : ∀ u, u ≠ t → (q.threads.setTcb t b).tcb u = q.threads.tcb u := fun u hut =>
    q.threads.setTcb_ne b hut
  have hsusp : ∀ u, ((q.threads.setTcb t b).tcb u).stat = .suspend →
      u ≠ t ∧ q.stat u = .suspend := by
    intro u hu
    by_cases hut : u = t
    · subst hut
      rw [hself, hstat] at hu
      cases hu
    · rw [hne u hut] at hu
      exact ⟨hut, hu⟩
  refine ⟨h.nodup.sublist hsub, ?_, fun u hu => ?_, fun u hu => ?_, fun u hu => ?_,
    fun u hu => ?_, ?_⟩
  · change q.threads.suspendThread.erase t = []
    rw [h.unlisted, List.erase_nil]
  · obtain ⟨hut, hu⟩ := hsusp u hu
    exact hrest u (h.linked u hu) hut
  · change ((q.threads.setTcb t b).tcb u).timer = true at hu
    change ((q.threads.setTcb t b).tcb u).stat = .suspend
    by_cases hut : u = t
    · subst hut
      rw [hself, htimer] at hu
      cases hu
    · rw [hne u hut] at hu ⊢
      exact h.timer u hu
  · change ((q.threads.setTcb t b).tcb u).stat = .suspend ∨
      ((q.threads.setTcb t b).tcb u).error = .etimeout ∧
        (u ∈ q.threads.resumed ++ [t] ∨ u ∈ q.removing)
    by_cases hut : u = t
    · subst hut
      rw [hself]
      exact .inr ⟨herr hu, .inl (List.mem_append_right _ List.mem_cons_self)⟩
    · rw [hne u hut]
      exact (h.entry u (hsub.subset hu)).imp_right fun ⟨he, hl⟩ =>
        ⟨he, hl.imp_left (List.mem_append_left [t])⟩
  · change ((q.threads.setTcb t b).tcb u).stat = .ready
    by_cases hut : u = t
    · subst hut
      rw [hself, hstat]
    · rw [hne u hut]
      refine h.leaving u (hu.imp_left fun hu => ?_)
      exact (List.mem_append.mp hu).resolve_right fun hu => hut (List.mem_singleton.mp hu)
  · have hperm : (q.threads.resumed ++ [t] ++ q.removing).Perm
        (t :: (q.threads.resumed ++ q.removing)) := by
      rw [List.append_assoc]
      exact List.perm_middle
    refine hperm.nodup_iff.mpr (List.nodup_cons.mpr ⟨fun hmem => hnot ?_, h.once⟩)
    exact List.mem_append.mp hmem

/-- A thread outside the call links itself and waits. -/
theorem suspended (h : Ok q) {t : Thread} (ht : q.threads.Running t) (hout : t ∉ q.removing)
    (timer : Bool) :
    Ok { q with
      waitingList := q.waitingList ++ [t]
      threads := q.threads.setTcb t
        { q.threads.tcb t with stat := .suspend, timer := timer } } := by
  have hnot : ¬ q.Leaving t := fun hl => hl.elim ht.2 hout
  have hfresh : t ∉ q.waitingList := fun hmem => by
    have hs := (h.waits_iff hmem).mpr hnot
    unfold RtWqueue.stat at hs
    rw [ht.1] at hs
    cases hs
  have hself := q.threads.setTcb_self t { q.threads.tcb t with stat := .suspend, timer := timer }
  have hne : ∀ u, u ≠ t → (q.threads.setTcb t
      { q.threads.tcb t with stat := .suspend, timer := timer }).tcb u = q.threads.tcb u :=
    fun u hut => q.threads.setTcb_ne _ hut
  refine ⟨?_, h.unlisted, fun u hu => ?_, fun u hu => ?_, fun u hu => ?_, fun u hu => ?_, h.once⟩
  · exact (List.perm_append_singleton t q.waitingList).nodup_iff.mpr
      (List.nodup_cons.mpr ⟨hfresh, h.nodup⟩)
  · by_cases hut : u = t
    · subst hut
      exact List.mem_append_right _ List.mem_cons_self
    · unfold RtWqueue.stat at hu
      rw [hne u hut] at hu
      exact List.mem_append_left _ (h.linked u hu)
  · unfold RtWqueue.stat
    by_cases hut : u = t
    · subst hut
      rw [hself]
    · rw [hne u hut] at hu ⊢
      exact h.timer u hu
  · unfold RtWqueue.stat
    by_cases hut : u = t
    · subst hut
      rw [hself]
      exact .inl rfl
    · rw [hne u hut]
      refine h.entry u ((List.mem_append.mp hu).resolve_right fun hu => ?_)
      exact hut (List.mem_singleton.mp hu)
  · unfold RtWqueue.stat
    rw [hne u fun hut => hnot (hut ▸ hu)]
    exact h.leaving u hu

theorem wait (h : Ok q) {t : Thread} (ht : q.threads.Running t) (hout : t ∉ q.removing)
    (condition : Bool) (msec : BitVec 32) : Ok (q.rtWqueueWait t condition msec) := by
  unfold RtWqueue.rtWqueueWait
  split
  · exact h
  split
  -- the flag is set: the call returns, and its entry was not linked
  · refine ⟨h.nodup, h.unlisted, h.linked, h.timer, fun u hu => ?_, fun u hu => ?_, ?_⟩
    · exact (h.entry u hu).imp_right fun ⟨he, hl⟩ => ⟨he, hl.imp_right (List.mem_cons_of_mem t)⟩
    · obtain hu | hu := hu
      · exact h.leaving u (.inl hu)
      · obtain rfl | hu := List.mem_cons.mp hu
        · exact ht.1
        · exact h.leaving u (.inr hu)
    · exact List.perm_middle.nodup_iff.mpr
        (List.nodup_cons.mpr ⟨fun hmem => (List.mem_append.mp hmem).elim ht.2 hout, h.once⟩)
  · unfold RtWqueue.suspendSelf RtWqueue.rtWqueueAdd Waiters.rtThreadSuspend
    rw [if_neg (not_not_intro ht.1)]
    split
    · have hsame := q.threads.setTcb_setTcb t
        { q.threads.tcb t with stat := .suspend, timer := false }
        { q.threads.tcb t with stat := .suspend, timer := true }
      unfold Waiters.startTimer
      rw [Waiters.setTcb_self, hsame]
      exact h.suspended ht hout true
    · exact h.suspended ht hout false

theorem timeout (h : Ok q) {t : Thread} (ht : (q.threads.tcb t).timer = true) :
    Ok { q with threads := q.threads.rtThreadTimeout t } :=
  h.readied (h.timer t ht) rfl rfl q.flag (.refl _) (fun _ hu _ => hu) fun _ => rfl

end Ok

omit [DecidableEq Thread] in
theorem firstAccepted_eq (key : BitVec 32) (l : List Thread) :
    firstAccepted key l = l.head? := by
  cases l with
  | nil => rfl
  | cons t rest => exact if_pos rfl

/-- A wakeup of a queue with entries removes the first one, and resumes its thread if that
thread waits. -/
theorem wakeup_cons {q : RtWqueue Thread} {t : Thread} {rest : List Thread}
    (hl : q.waitingList = t :: rest) (key : BitVec 32) :
    q.rtWqueueWakeup key =
      { q with
        flag := .wakeup
        waitingList := rest
        threads := q.threads.rtThreadResume t } := by
  have hfirst : firstAccepted key q.waitingList = some t := by
    rw [firstAccepted_eq, hl, List.head?_cons]
  unfold RtWqueue.rtWqueueWakeup
  rw [hfirst]
  unfold RtWqueue.rtWqueueRemove
  dsimp only
  rw [hl, List.erase_cons_head]

theorem wakeup_nil {q : RtWqueue Thread} (hl : q.waitingList = []) (key : BitVec 32) :
    q.rtWqueueWakeup key = { q with flag := .wakeup } := by
  have hfirst : firstAccepted key q.waitingList = none := by
    rw [firstAccepted_eq, hl, List.head?_nil]
  unfold RtWqueue.rtWqueueWakeup
  rw [hfirst]

namespace Ok
variable {q : RtWqueue Thread}

omit [DecidableEq Thread] in
/-- An entry whose thread does not wait can go. -/
theorem unlink (h : Ok q) (flag : WqFlag) {l : List Thread} (hsub : l.Sublist q.waitingList)
    (hwait : ∀ u ∈ q.waitingList, q.stat u = .suspend → u ∈ l) :
    Ok { q with flag := flag, waitingList := l } where
  nodup := h.nodup.sublist hsub
  unlisted := h.unlisted
  linked u hu := hwait u (h.linked u hu) hu
  timer := h.timer
  entry u hu := h.entry u (hsub.subset hu)
  leaving := h.leaving
  once := h.once

theorem wakeup (h : Ok q) (key : BitVec 32) : Ok (q.rtWqueueWakeup key) := by
  cases hl : q.waitingList with
  | nil =>
    rw [wakeup_nil hl]
    exact h.unlink .wakeup (.refl _) fun _ hu _ => hu
  | cons t rest =>
    rw [wakeup_cons hl]
    have hnodup := h.nodup
    rw [hl] at hnodup
    have hsub : rest.Sublist q.waitingList := hl ▸ List.sublist_cons_self t rest
    have hrest : ∀ u ∈ q.waitingList, u ≠ t → u ∈ rest := fun u hu hut =>
      (List.mem_cons.mp (hl ▸ hu)).resolve_left hut
    unfold Waiters.rtThreadResume
    split
    · rename_i hs
      exact h.unlink .wakeup hsub fun u hu hwait => hrest u hu fun hut => hs (hut ▸ hwait)
    · rename_i hs
      exact h.readied (not_not.mp hs) rfl rfl .wakeup hsub hrest fun hmem =>
        absurd hmem (List.nodup_cons.mp hnodup).1

theorem run (h : Ok q) {t : Thread} (ht : t ∈ q.threads.resumed) : Ok (q.waitAgain t) := by
  have hperm : (q.threads.resumed.erase t ++ t :: q.removing).Perm
      (q.threads.resumed ++ q.removing) := by
    refine List.perm_middle.trans ?_
    rw [← List.cons_append]
    exact (List.perm_cons_erase ht).symm.append_right q.removing
  have hleaving : ∀ u, (q.waitAgain t).Leaving u ↔ q.Leaving u := fun u => by
    unfold RtWqueue.Leaving RtWqueue.waitAgain Waiters.runAgain
    rw [← List.mem_append, ← List.mem_append]
    exact hperm.mem_iff
  refine ⟨h.nodup, h.unlisted, h.linked, h.timer, fun u hu => ?_, fun u hu => ?_, ?_⟩
  · exact (h.entry u hu).imp_right fun ⟨he, hl⟩ => ⟨he, (hleaving u).mpr hl⟩
  · exact h.leaving u ((hleaving u).mp hu)
  · exact hperm.nodup_iff.mpr h.once

theorem remove (h : Ok q) {t : Thread} (ht : t ∈ q.removing) : Ok (q.waitEnd t) := by
  obtain ⟨-, hnodup, -⟩ := List.nodup_append.mp h.once
  have hready := h.leaving t (.inr ht)
  refine ⟨h.nodup.erase t, h.unlisted, fun u hu => ?_, h.timer, fun u hu => ?_, fun u hu => ?_,
    ?_⟩
  · refine (h.nodup.mem_erase_iff).mpr ⟨fun hut => ?_, h.linked u hu⟩
    subst hut
    exact absurd (hu.symm.trans hready) nofun
  · obtain ⟨hut, hu⟩ := h.nodup.mem_erase_iff.mp hu
    exact (h.entry u hu).imp_right fun ⟨he, hl⟩ =>
      ⟨he, hl.imp_right fun hr => (List.mem_erase_of_ne hut).mpr hr⟩
  · exact h.leaving u (hu.imp_right List.mem_of_mem_erase)
  · exact h.once.sublist ((List.Sublist.refl _).append List.erase_sublist)

theorem step {q' : RtWqueue Thread} {e : Event Thread} (h : Ok q) (hstep : step q e = some q') :
    Ok q' := by
  cases e with
  | wait t condition msec =>
    obtain ⟨⟨ht, hout⟩, ⟨⟩⟩ := Option.ite_none_right_eq_some.mp hstep
    exact h.wait ht hout condition msec
  | wakeup key =>
    obtain rfl := Option.some.inj hstep
    exact h.wakeup key
  | timeout t =>
    obtain ⟨ht, ⟨⟩⟩ := Option.ite_none_right_eq_some.mp hstep
    exact h.timeout ht
  | run t =>
    obtain ⟨ht, ⟨⟩⟩ := Option.ite_none_right_eq_some.mp hstep
    exact h.run ht
  | remove t =>
    obtain ⟨ht, ⟨⟩⟩ := Option.ite_none_right_eq_some.mp hstep
    exact h.remove ht

/-- A wakeup resumes the thread of the first entry, or none. -/
theorem resumes_iff (h : Ok q) (e : Event Thread) : Resumes q e ↔ FrontWaits q e := by
  cases e with
  | wait | timeout | run | remove => exact Iff.rfl
  | wakeup key =>
    have hmem : ∀ {u}, u ∈ q.waitingList → (¬ q.stat u = .suspend ↔ q.Leaving u) := fun hu =>
      (not_congr (h.waits_iff hu)).trans not_not
    constructor
    · intro hresumes t rest hl hleaving u hu
      have hu' : u ∈ q.waitingList := hl ▸ List.mem_cons_of_mem t hu
      have ht : ¬ q.stat t = .suspend := (hmem (hl ▸ List.mem_cons_self)).mpr hleaving
      refine (hmem hu').mp fun hsusp => ?_
      obtain ⟨v, -, hv, hready⟩ := hresumes ⟨u, hu', hsusp⟩
      -- the thread in front does not wait, so nothing has changed for the threads
      have hsame : q.threads.rtThreadResume t = q.threads := if_pos ht
      unfold RtWqueue.stat at hv hready
      rw [wakeup_cons hl, hsame, hv] at hready
      cases hready
    · intro hfront hwaits
      obtain ⟨u, hu, hsusp⟩ := hwaits
      cases hl : q.waitingList with
      | nil =>
        rw [hl] at hu
        cases hu
      | cons t rest =>
        have ht : q.stat t = .suspend := by
          obtain rfl | hrest := List.mem_cons.mp (hl ▸ hu)
          · exact hsusp
          · by_contra hnot
            have hleaving := (hmem (hl ▸ List.mem_cons_self)).mp hnot
            exact (hmem hu).mpr (hfront t rest hl hleaving u hrest) hsusp
        refine ⟨t, List.mem_cons_self, ht, ?_⟩
        unfold RtWqueue.stat at ht ⊢
        rw [wakeup_cons hl, Waiters.rtThreadResume, if_neg (not_not_intro ht)]
        exact congrArg Tcb.stat (Waiters.setTcb_self _ _ _)

end Ok

/-! ## Whole runs -/

/-- In every state, a linked thread waits, or it has timed out and not come to its
`rt_wqueue_remove` yet. -/
theorem linked_throughout (priority : Thread → Nat) (es : List (Event Thread)) :
    Throughout step (fun q => ∀ t ∈ q.waitingList,
      q.stat t = .suspend ∨ (q.threads.tcb t).error = .etimeout ∧ q.Leaving t)
      (start priority) es :=
  throughout_of_keep (fun _ h => h.entry) (fun _ _ _ h => h.step) (ok_start priority) es

/-- Whatever threads, timers and interrupts do, every wakeup of a queue with a suspended waiter
resumes one exactly if none finds an entry of a thread that no longer waits in front of one that
does. -/
theorem resumes_along_iff (priority : Thread → Nat) (es : List (Event Thread)) :
    Along step Resumes (start priority) es ↔ Along step FrontWaits (start priority) es :=
  ⟨along_of_along (fun _ _ _ h _ => h.step) (fun _ e h => (h.resumes_iff e).mp)
      (ok_start priority),
    along_of_along (fun _ _ _ h _ => h.step) (fun _ e h => (h.resumes_iff e).mpr)
      (ok_start priority)⟩

/-- A thread times out while another waits behind it. The wakeup that comes before it runs again
is for its entry. -/
theorem wakeup_absorbed :
    ¬ Along step Resumes (start fun _ : Bool => 10)
      [.wait true false 10, .wait false false (-1), .timeout true, .wakeup 0] := fun h => by
  obtain ⟨-, h⟩ := h _ rfl
  obtain ⟨-, h⟩ := h _ rfl
  obtain ⟨-, h⟩ := h _ rfl
  obtain ⟨hresumes, -⟩ := h _ rfl
  obtain ⟨u, -, hsusp, hready⟩ := hresumes ⟨false, .tail _ (.head _), rfl⟩
  cases u with
  | true => exact absurd hsusp (by decide)
  | false => exact absurd hready (by decide)

end ControlRTT.Drivers.WaitQueue

import ControlRTT.Lib.Runs
import ControlRTT.Lib.CInt
import ControlRTT.Kernel.Thread

/-! # Mutexes (ipc.c)

Any threads take and release a mutex, nested as they like, and timers end waits.
A thread's outstanding takes are those that returned `RT_EOK` or were handed over to
it while it waited, less its releases. `hold` is an 8-bit counter: as long as no
owner takes the mutex when it is 255, only the owner has outstanding takes and
`hold` is their number (`owned_throughout_iff`). Signals, which make a wait start
again, are not among the events. -/
namespace ControlRTT.Kernel.Mutex
open ControlRTT.Lib.Runs ControlRTT.Kernel.Thread

structure RtMutex (Thread : Type) where
  value : BitVec 16 := 1
  originalPriority : Nat := 0xFF
  hold : BitVec 8 := 0
  owner : Option Thread := none
  flag : IpcFlag
  waiters : Waiters Thread

variable {Thread : Type} [DecidableEq Thread]

def rtMutexInit (flag : IpcFlag) (waiters : Waiters Thread) : RtMutex Thread where
  flag := flag
  waiters := waiters

/-- The owner gets the priority of the thread that is about to wait, if that is
higher. A mutex that has to be waited for has an owner. -/
def raiseOwner (w : Waiters Thread) (owner : Option Thread) (thread : Thread) :
    Waiters Thread :=
  match owner with
  | none => w
  | some o =>
    if (w.tcb thread).currentPriority < (w.tcb o).currentPriority then
      w.changePriority o (w.tcb thread).currentPriority
    else w

/-- The call up to its return, or up to `rt_schedule` if it has to wait (`none`). -/
def rtMutexTake (mutex : RtMutex Thread) (thread : Thread) (time : Int) :
    RtMutex Thread × Option Err :=
  let w := mutex.waiters.setError thread .eok
  if mutex.owner = some thread then
    ({ mutex with waiters := w, hold := mutex.hold + 1 }, some .eok)
  else if mutex.value > 0 then
    ({ mutex with
        waiters := w
        value := mutex.value - 1
        owner := some thread
        originalPriority := (w.tcb thread).currentPriority
        hold := mutex.hold + 1 }, some .eok)
  else if time = 0 then
    ({ mutex with waiters := w.setError thread .etimeout }, some .etimeout)
  else
    let w := (raiseOwner w mutex.owner thread).rtIpcListSuspend mutex.flag thread
    ({ mutex with waiters := if time > 0 then w.startTimer thread else w }, none)

/-- The rest of a call that had to wait, from `rt_schedule` on. -/
def rtMutexTakeEnd (mutex : RtMutex Thread) (thread : Thread) : RtMutex Thread × Err :=
  ({ mutex with waiters := mutex.waiters.runAgain thread }, (mutex.waiters.tcb thread).error)

/-- The owner, `thread`, gets its original priority back. -/
def restoreOwner (w : Waiters Thread) (thread : Thread) (originalPriority : Nat) :
    Waiters Thread :=
  if originalPriority ≠ (w.tcb thread).currentPriority then
    w.changePriority thread originalPriority
  else w

/-- What the outermost release does: the first waiting thread becomes the owner, or
nobody. -/
def passOn (mutex : RtMutex Thread) : RtMutex Thread :=
  match mutex.waiters.suspendThread with
  | t :: _ =>
    { mutex with
      owner := some t
      originalPriority := (mutex.waiters.tcb t).currentPriority
      hold := mutex.hold + 1
      waiters := mutex.waiters.rtIpcListResume }
  | [] => { mutex with value := mutex.value + 1, owner := none, originalPriority := 0xFF }

def rtMutexRelease (mutex : RtMutex Thread) (thread : Thread) : RtMutex Thread × Err :=
  if mutex.owner ≠ some thread then
    ({ mutex with waiters := mutex.waiters.setError thread .error }, .error)
  else
    let hold := mutex.hold - 1
    if hold = 0 then
      (passOn { mutex with
        hold := hold
        waiters := restoreOwner mutex.waiters thread mutex.originalPriority }, .eok)
    else ({ mutex with hold := hold }, .eok)

/-! ## Runs -/

inductive Event (Thread : Type) where
  | take (thread : Thread) (time : Int)
  | release (thread : Thread)
  | timeout (thread : Thread)
  | run (thread : Thread)

/-- A mutex, and the takes and releases of each thread that returned `RT_EOK`. -/
structure MutexRun (Thread : Type) where
  mutex : RtMutex Thread
  taken : Thread → Nat := fun _ => 0
  released : Thread → Nat := fun _ => 0

/-- The counters with the return of a call added. -/
def counted (counts : Thread → Nat) (thread : Thread) (err : Option Err) : Thread → Nat :=
  fun t => counts t + if t = thread ∧ err = some .eok then 1 else 0

/-- Only a running thread calls, only a started timer fires, and only a resumed thread
comes back from `rt_schedule`. -/
def step (s : MutexRun Thread) : Event Thread → Option (MutexRun Thread)
  | .take t time =>
    if s.mutex.waiters.Running t then
      let (mutex, err) := rtMutexTake s.mutex t time
      some { s with mutex := mutex, taken := counted s.taken t err }
    else none
  | .release t =>
    if s.mutex.waiters.Running t then
      let (mutex, err) := rtMutexRelease s.mutex t
      some { s with mutex := mutex, released := counted s.released t (some err) }
    else none
  | .timeout t =>
    if (s.mutex.waiters.tcb t).timer then
      some { s with mutex := { s.mutex with waiters := s.mutex.waiters.rtThreadTimeout t } }
    else none
  | .run t =>
    if t ∈ s.mutex.waiters.resumed then
      let (mutex, err) := rtMutexTakeEnd s.mutex t
      some { s with mutex := mutex, taken := counted s.taken t (some err) }
    else none

def start (flag : IpcFlag) (priority : Thread → Nat) : MutexRun Thread where
  mutex := rtMutexInit flag (Waiters.idle priority)

/-- The takes of a thread that have succeeded, those handed over to it included. -/
def MutexRun.succeeded (s : MutexRun Thread) (t : Thread) : Nat :=
  s.taken t + if t ∈ s.mutex.waiters.handedOver then 1 else 0

/-- The takes a thread has yet to release. -/
def MutexRun.outstanding (s : MutexRun Thread) (t : Thread) : Int :=
  s.succeeded t - s.released t

/-- One owner at most, and its counters agree with what it has done. -/
structure Owned (s : MutexRun Thread) : Prop where
  one : ∀ t u, 0 < s.outstanding t → 0 < s.outstanding u → t = u
  owner : ∀ t, 0 < s.outstanding t ↔ s.mutex.owner = some t
  free : s.mutex.value = 1 ↔ s.mutex.owner = none ∧ s.mutex.hold = 0
  nested : ∀ t, s.mutex.owner = some t → s.mutex.hold.toNat = s.outstanding t

/-- The owner stays, or takes a mutex that had none, or ends its last outstanding take:
then a waiting thread is the owner or nobody. -/
def Passes (s : MutexRun Thread) (e : Event Thread) : Prop :=
  ∀ s', step s e = some s' →
    s'.mutex.owner = s.mutex.owner ∨
    (s.mutex.owner = none ∧ ∃ t time, e = .take t time ∧ s'.mutex.owner = some t) ∨
    ∃ o, s.mutex.owner = some o ∧ e = .release o ∧ s.outstanding o = 1 ∧
      (s'.mutex.owner = none ∨
        ∃ t ∈ s.mutex.waiters.suspendThread, s'.mutex.owner = some t)

/-- The step does not nest a take of the owner in 255 others. -/
def Fits (s : MutexRun Thread) (e : Event Thread) : Prop :=
  match e with
  | .take t _ => s.mutex.owner = some t → s.mutex.hold ≠ 0xFF
  | _ => True

/-! ## The steps -/

theorem step_take {s s' : MutexRun Thread} {t : Thread} {time : Int}
    (h : step s (.take t time) = some s') : s.mutex.waiters.Running t ∧
      s' = { s with
        mutex := (rtMutexTake s.mutex t time).1
        taken := counted s.taken t (rtMutexTake s.mutex t time).2 } := by
  obtain ⟨ht, heq⟩ := Option.ite_none_right_eq_some.mp h
  exact ⟨ht, (Option.some.inj heq).symm⟩

theorem step_release {s s' : MutexRun Thread} {t : Thread}
    (h : step s (.release t) = some s') : s.mutex.waiters.Running t ∧
      s' = { s with
        mutex := (rtMutexRelease s.mutex t).1
        released := counted s.released t (some (rtMutexRelease s.mutex t).2) } := by
  obtain ⟨ht, heq⟩ := Option.ite_none_right_eq_some.mp h
  exact ⟨ht, (Option.some.inj heq).symm⟩

theorem step_timeout {s s' : MutexRun Thread} {t : Thread}
    (h : step s (.timeout t) = some s') : (s.mutex.waiters.tcb t).timer = true ∧
      s' = { s with mutex :=
        { s.mutex with waiters := s.mutex.waiters.rtThreadTimeout t } } := by
  obtain ⟨ht, heq⟩ := Option.ite_none_right_eq_some.mp h
  exact ⟨ht, (Option.some.inj heq).symm⟩

theorem step_run {s s' : MutexRun Thread} {t : Thread} (h : step s (.run t) = some s') :
    t ∈ s.mutex.waiters.resumed ∧
      s' = { s with
        mutex := (rtMutexTakeEnd s.mutex t).1
        taken := counted s.taken t (some (rtMutexTakeEnd s.mutex t).2) } := by
  obtain ⟨ht, heq⟩ := Option.ite_none_right_eq_some.mp h
  exact ⟨ht, (Option.some.inj heq).symm⟩

/-- The takes that `hold` stands for. -/
def share (mutex : RtMutex Thread) (t : Thread) : Nat :=
  if mutex.owner = some t then mutex.hold.toNat else 0

structure Inv (s : MutexRun Thread) : Prop where
  ok : s.mutex.waiters.Ok
  count : ∀ t, s.succeeded t = s.released t + share s.mutex t
  owned : ∀ t, s.mutex.owner = some t → s.mutex.value = 0 ∧ s.mutex.hold ≠ 0
  unowned : s.mutex.owner = none → s.mutex.value = 1 ∧ s.mutex.hold = 0

theorem Inv.outstanding {s : MutexRun Thread} (h : Inv s) (t : Thread) :
    s.outstanding t = share s.mutex t := by
  have := h.count t
  unfold MutexRun.outstanding
  omega

theorem Inv.toOwned {s : MutexRun Thread} (h : Inv s) : Owned s := by
  have howner : ∀ t, 0 < s.outstanding t ↔ s.mutex.owner = some t := by
    intro t
    rw [h.outstanding, share]
    split
    · rename_i ho
      have := (h.owned t ho).2
      exact ⟨fun _ => ho, fun _ => by bv_omega⟩
    · rename_i ho
      exact ⟨fun hpos => absurd hpos (by simp), fun hown => absurd hown ho⟩
  refine ⟨fun t u ht hu => ?_, howner, ?_, fun t ho => ?_⟩
  · exact Option.some.inj (((howner t).mp ht).symm.trans ((howner u).mp hu))
  · cases ho : s.mutex.owner with
    | none => simp [h.unowned ho]
    | some t => simp [(h.owned t ho).1]
  · rw [h.outstanding, share, if_pos ho]

/-- Changes of the wait list alone. -/
theorem Inv.waiters {s : MutexRun Thread} (h : Inv s) {w : Waiters Thread} (hok : w.Ok)
    (hhand : w.handedOver = s.mutex.waiters.handedOver) :
    Inv { s with mutex := { s.mutex with waiters := w } } where
  ok := hok
  count t := by
    have := h.count t
    simpa only [MutexRun.succeeded, hhand, share] using this
  owned := h.owned
  unowned := h.unowned

theorem share_owner {m : RtMutex Thread} {t : Thread} (h : m.owner = some t) :
    share m t = m.hold.toNat := if_pos h

theorem share_other {m : RtMutex Thread} {t : Thread} (h : m.owner ≠ some t) :
    share m t = 0 := if_neg h

theorem counted_eok (counts : Thread → Nat) (t u : Thread) :
    counted counts t (some .eok) u = counts u + if u = t then 1 else 0 := by
  simp [counted]

theorem counted_other (counts : Thread → Nat) (t : Thread) {err : Option Err}
    (h : err ≠ some .eok) : counted counts t err = counts := by
  funext u
  simp [counted, h]

/-- A mutex that `t` owns, in terms of one that only `t` could own. -/
theorem share_take {m m' : RtMutex Thread} {t : Thread} (hown : m'.owner = some t)
    (hold : ∀ u, m.owner = some u → u = t) (hhold : m'.hold.toNat = share m t + 1)
    (u : Thread) : share m' u = share m u + if u = t then 1 else 0 := by
  by_cases hut : u = t
  · subst hut
    rw [share_owner hown, hhold, if_pos rfl]
  · have hm' : m'.owner ≠ some u := fun h => hut (Option.some.inj (h.symm.trans hown))
    rw [share_other fun h => hut (hold u h), share_other hm', if_neg hut]

theorem raiseOwner_spec {w : Waiters Thread} (hw : w.Ok) (owner : Option Thread)
    {t : Thread} (ht : w.Running t) :
    (raiseOwner w owner t).Ok ∧ (raiseOwner w owner t).Running t ∧
      (raiseOwner w owner t).handedOver = w.handedOver ∧
      ((raiseOwner w owner t).tcb t).error = (w.tcb t).error := by
  unfold raiseOwner
  cases owner with
  | none => exact ⟨hw, ht, rfl, rfl⟩
  | some o =>
    dsimp only
    split
    · obtain ⟨hstat, herr, -⟩ := w.changePriority_tcb o t (w.tcb t).currentPriority
      exact ⟨hw.changePriority o _, ⟨hstat.trans ht.1, ht.2⟩,
        w.handedOver_changePriority o _, herr⟩
    · exact ⟨hw, ht, rfl, rfl⟩

/-- A take that ends with `t` as the owner, now or still. -/
theorem Inv.taken {s : MutexRun Thread} (h : Inv s) {t : Thread} {m : RtMutex Thread}
    (hok : m.waiters.Ok) (hhand : m.waiters.handedOver = s.mutex.waiters.handedOver)
    (hown : m.owner = some t) (hold : ∀ u, s.mutex.owner = some u → u = t)
    (hvalue : m.value = 0) (hhold : m.hold.toNat = share s.mutex t + 1) :
    Inv { s with mutex := m, taken := counted s.taken t (some .eok) } where
  ok := hok
  count u := by
    have hu := h.count u
    simp only [MutexRun.succeeded, hhand, counted_eok, share_take hown hold hhold u] at hu ⊢
    omega
  owned u _ := ⟨hvalue, fun hz => by
    change m.hold = 0 at hz
    rw [hz] at hhold
    exact absurd hhold (Nat.zero_ne_add_one _)⟩
  unowned hn := by rw [hown] at hn; cases hn

theorem Inv.take {s : MutexRun Thread} (h : Inv s) {t : Thread}
    (ht : s.mutex.waiters.Running t) (time : Int) (hfits : Fits s (.take t time)) :
    Inv { s with
      mutex := (rtMutexTake s.mutex t time).1
      taken := counted s.taken t (rtMutexTake s.mutex t time).2 } := by
  have hok := h.ok.setError ht .eok
  have hrun := ht.setError .eok
  have hhand := Waiters.handedOver_setError ht .eok
  unfold rtMutexTake
  dsimp only
  split
  -- once more by the owner
  · rename_i hown
    refine h.taken hok hhand hown (fun u hu => ?_) (h.owned t hown).1 ?_
    · exact Option.some.inj (hu.symm.trans hown)
    · have := hfits hown
      rw [share, if_pos hown]
      bv_omega
  · split
    -- a mutex without an owner
    · rename_i hval
      have ho : s.mutex.owner = none := by
        refine Option.eq_none_iff_forall_ne_some.mpr fun o ho => ?_
        rw [(h.owned o ho).1] at hval
        exact absurd hval (by decide)
      obtain ⟨hv, hh⟩ := h.unowned ho
      refine h.taken hok hhand rfl (fun u hu => ?_) (by simp [hv]) ?_
      · rw [ho] at hu
        cases hu
      · simp [share, ho, hh]
    · split
      · rw [counted_other s.taken t (by simp)]
        exact h.waiters (hok.setError hrun .etimeout)
          ((Waiters.handedOver_setError hrun .etimeout).trans hhand)
      -- the thread waits
      · rw [counted_other s.taken t (by simp)]
        obtain ⟨hok', hrun', hhand', herr⟩ := raiseOwner_spec hok s.mutex.owner hrun
        have herr' := herr.trans (by simp [Waiters.setError] : _ = Err.eok)
        have hsusp := hok'.rtIpcListSuspend hrun' herr' s.mutex.flag
        have hh := (Waiters.handedOver_rtIpcListSuspend s.mutex.flag hrun').trans
          (hhand'.trans hhand)
        have hmem := Waiters.mem_rtIpcListSuspend s.mutex.flag hrun'
        refine h.waiters ?_ ?_
        · split
          · exact hsusp.startTimer hmem
          · exact hsusp
        · split
          · exact (Waiters.handedOver_setTcb _ (hsusp.notMem_resumed hmem) _).trans hh
          · exact hh

theorem restoreOwner_spec {w : Waiters Thread} (hw : w.Ok) (t : Thread) (priority : Nat) :
    (restoreOwner w t priority).Ok ∧
      (restoreOwner w t priority).suspendThread = w.suspendThread ∧
      (restoreOwner w t priority).handedOver = w.handedOver := by
  unfold restoreOwner
  split
  · exact ⟨hw.changePriority t priority, rfl, w.handedOver_changePriority t priority⟩
  · exact ⟨hw, rfl, rfl⟩

/-- The last outstanding take of `t` is released and the mutex passed on. -/
theorem Inv.passOn {s : MutexRun Thread} (h : Inv s) {t : Thread}
    (ht : s.mutex.waiters.Running t) (hown : s.mutex.owner = some t)
    (hhold : s.mutex.hold.toNat = 1) {m : RtMutex Thread} (hok : m.waiters.Ok)
    (hlist : m.waiters.suspendThread = s.mutex.waiters.suspendThread)
    (hhand : m.waiters.handedOver = s.mutex.waiters.handedOver)
    (hm : m.hold = 0) (hv : m.value = s.mutex.value) :
    Inv { s with mutex := passOn m, released := counted s.released t (some .eok) } := by
  have hv0 := (h.owned t hown).1
  have hnot : ∀ u, u ≠ t → s.mutex.owner ≠ some u := fun u hut h =>
    hut (Option.some.inj (h.symm.trans hown))
  unfold Mutex.passOn
  split
  -- the first waiting thread is the new owner
  · rename_i v rest hl
    have hvmem : v ∈ s.mutex.waiters.suspendThread := hlist ▸ hl ▸ List.mem_cons_self
    have hvt : v ≠ t := ne_of_mem_of_not_mem hvmem (h.ok.running_notMem ht)
    have hvhand : v ∉ s.mutex.waiters.handedOver := fun hmem =>
      h.ok.notMem_resumed hvmem (List.mem_filter.mp hmem).1
    refine ⟨hok.rtIpcListResume, fun u => ?_, fun u _ => ⟨hv.trans hv0, ?_⟩, fun hn => ?_⟩
    · have hu := h.count u
      simp only [MutexRun.succeeded, counted_eok, hok.handedOver_rtIpcListResume hl, hhand,
        List.mem_append, List.mem_singleton] at hu ⊢
      by_cases huv : u = v
      · subst huv
        rw [share_other (hnot u hvt), if_neg hvhand] at hu
        rw [share_owner rfl, if_neg hvt, if_pos (.inr rfl), hm]
        exact congrArg (· + 1) hu
      · rw [share_other fun h => huv (Option.some.inj h).symm]
        simp only [huv, or_false]
        by_cases hut : u = t
        · subst hut
          rw [share_owner hown, hhold] at hu
          rwa [if_pos rfl]
        · rw [share_other (hnot u hut)] at hu
          rwa [if_neg hut]
    · simp [hm]
    · cases hn
  -- nobody waits
  · refine ⟨hok, fun u => ?_, fun u hu => ?_, fun _ => ⟨by simp [hv, hv0], hm⟩⟩
    · have hu := h.count u
      simp only [MutexRun.succeeded, counted_eok, hhand] at hu ⊢
      rw [share_other fun h => by cases h]
      by_cases hut : u = t
      · subst hut
        rw [share_owner hown, hhold] at hu
        rwa [if_pos rfl]
      · rw [share_other (hnot u hut)] at hu
        rwa [if_neg hut]
    · cases hu

theorem Inv.release {s : MutexRun Thread} (h : Inv s) {t : Thread}
    (ht : s.mutex.waiters.Running t) :
    Inv { s with
      mutex := (rtMutexRelease s.mutex t).1
      released := counted s.released t (some (rtMutexRelease s.mutex t).2) } := by
  unfold rtMutexRelease
  split
  · rw [counted_other s.released t (by simp)]
    exact h.waiters (h.ok.setError ht .error) (Waiters.handedOver_setError ht .error)
  · rename_i ho
    have hown := not_not.mp ho
    have hne := (h.owned t hown).2
    dsimp only
    split
    · rename_i hz
      obtain ⟨hok, hlist, hhand⟩ := restoreOwner_spec h.ok t s.mutex.originalPriority
      exact h.passOn ht hown (by bv_omega) hok hlist hhand hz rfl
    · rename_i hz
      refine ⟨h.ok, fun u => ?_, fun u hu => ⟨(h.owned u hu).1, hz⟩, fun hn => ?_⟩
      · have hu := h.count u
        have hpred : (s.mutex.hold - 1).toNat + 1 = s.mutex.hold.toNat := by bv_omega
        simp only [MutexRun.succeeded, counted_eok] at hu ⊢
        by_cases hut : u = t
        · subst hut
          rw [share_owner hown] at hu
          rw [share_owner (by exact hown), if_pos rfl]
          dsimp only
          omega
        · have hnot : s.mutex.owner ≠ some u := fun h =>
            hut (Option.some.inj (h.symm.trans hown))
          rw [share_other hnot] at hu
          rwa [share_other (by exact hnot), if_neg hut]
      · rw [hown] at hn
        cases hn

theorem Inv.run {s : MutexRun Thread} (h : Inv s) {t : Thread}
    (ht : t ∈ s.mutex.waiters.resumed) :
    Inv { s with
      mutex := (rtMutexTakeEnd s.mutex t).1
      taken := counted s.taken t (some (rtMutexTakeEnd s.mutex t).2) } where
  ok := h.ok.runAgain t
  count u := by
    have hu := h.count u
    have hnd : s.mutex.waiters.handedOver.Nodup :=
      (List.nodup_append.mp h.ok.nodup).2.1.sublist List.filter_sublist
    have hmem := s.mutex.waiters.mem_handedOver ht
    change counted _ _ _ u + (if u ∈ (s.mutex.waiters.runAgain t).handedOver then 1 else 0) =
      s.released u + share s.mutex u
    simp only [← hu, MutexRun.succeeded, h.ok.handedOver_runAgain t, hnd.mem_erase_iff]
    -- a take that was handed over is now one that was returned
    by_cases hut : u = t
    · subst hut
      by_cases he : (s.mutex.waiters.tcb u).error = .eok
      · simp [counted, rtMutexTakeEnd, he, hmem]
      · simp [counted, rtMutexTakeEnd, he, hmem]
    · simp [counted, hut]
  owned := h.owned
  unowned := h.unowned

theorem Inv.step {s s' : MutexRun Thread} {e : Event Thread} (h : Inv s) (hfits : Fits s e)
    (hstep : step s e = some s') : Inv s' := by
  cases e with
  | take t time =>
    obtain ⟨ht, rfl⟩ := step_take hstep
    exact h.take ht time hfits
  | release t =>
    obtain ⟨ht, rfl⟩ := step_release hstep
    exact h.release ht
  | timeout t =>
    obtain ⟨ht, rfl⟩ := step_timeout hstep
    have hmem := h.ok.timer t ht
    exact h.waiters (h.ok.rtThreadTimeout hmem) (h.ok.handedOver_rtThreadTimeout hmem)
  | run t =>
    obtain ⟨ht, rfl⟩ := step_run hstep
    exact h.run ht

/-- An owner that nests one take too many has a `hold` of zero. -/
theorem Owned.fits {s s' : MutexRun Thread} {e : Event Thread} (hs' : Owned s')
    (hstep : step s e = some s') : Fits s e := by
  cases e with
  | take t time =>
    obtain ⟨ht, rfl⟩ := step_take hstep
    intro hown hmax
    have htake : rtMutexTake s.mutex t time = ({ s.mutex with
        waiters := s.mutex.waiters.setError t .eok, hold := 0 }, some .eok) := by
      unfold rtMutexTake
      rw [if_pos hown, hmax]
      rfl
    rw [htake] at hs'
    have hpos := (hs'.owner t).mpr hown
    rw [← hs'.nested t hown] at hpos
    exact absurd hpos (by simp)
  | release | timeout | run => trivial

theorem Inv.passes {s : MutexRun Thread} (h : Inv s) (e : Event Thread) : Passes s e := by
  intro s' hstep
  cases e with
  | take t time =>
    obtain ⟨ht, rfl⟩ := step_take hstep
    unfold rtMutexTake
    dsimp only
    split
    · exact .inl rfl
    · split
      · rename_i hval
        refine .inr (.inl ⟨Option.eq_none_iff_forall_ne_some.mpr fun o ho => ?_, t, time, rfl, rfl⟩)
        rw [(h.owned o ho).1] at hval
        exact absurd hval (by decide)
      · split
        · exact .inl rfl
        · exact .inl rfl
  | release t =>
    obtain ⟨ht, rfl⟩ := step_release hstep
    unfold rtMutexRelease
    dsimp only
    split
    · exact .inl rfl
    · rename_i ho
      have hown := not_not.mp ho
      split
      · rename_i hz
        refine .inr (.inr ⟨t, hown, rfl, ?_, ?_⟩)
        · rw [h.outstanding, share_owner hown]
          have : s.mutex.hold.toNat = 1 := by bv_omega
          rw [this]
          rfl
        · have hlist := (restoreOwner_spec h.ok t s.mutex.originalPriority).2.1
          unfold Mutex.passOn
          split
          · rename_i v rest hl
            exact .inr ⟨v, hlist ▸ hl ▸ List.mem_cons_self, rfl⟩
          · exact .inl rfl
      · exact .inl rfl
  | timeout t =>
    obtain ⟨ht, rfl⟩ := step_timeout hstep
    exact .inl rfl
  | run t =>
    obtain ⟨ht, rfl⟩ := step_run hstep
    exact .inl rfl

theorem inv_start (flag : IpcFlag) (priority : Thread → Nat) : Inv (start flag priority) where
  ok := Waiters.ok_idle priority
  count _ := rfl
  owned _ h := by cases h
  unowned _ := ⟨rfl, rfl⟩

/-! ## Whole runs -/

/-- Whatever the threads do, the mutex has one owner at most, whose counters are right,
and is passed on only by the owner, exactly if no owner nests 256 takes. -/
theorem owned_throughout_iff (flag : IpcFlag) (priority : Thread → Nat)
    (es : List (Event Thread)) :
    Throughout step Owned (start flag priority) es ∧
        Along step Passes (start flag priority) es ↔
      Along step Fits (start flag priority) es := by
  have hstart := inv_start flag priority
  have hiff : Throughout step Owned (start flag priority) es ↔
      Along step Fits (start flag priority) es :=
    throughout_iff_along (fun _ h => h.toOwned) (fun _ _ _ h hfits => h.step hfits)
      (fun _ _ _ _ hstep h => h.fits hstep) hstart es
  refine ⟨fun h => hiff.mp h.1, fun h => ⟨hiff.mpr h, ?_⟩⟩
  exact along_of_along (J := Inv) (fun _ _ _ h hfits => h.step hfits)
    (fun _ e h _ => h.passes e) hstart h

theorem exists_step_take {s : MutexRun Thread} {t : Thread}
    (ht : s.mutex.waiters.Running t) (time : Int) :
    ∃ s', step s (.take t time) = some s' := by
  simp [step, ht]

/-- The 8-bit counter after any number of nested takes. -/
theorem run_takes (flag : IpcFlag) (priority : Thread → Nat) (t : Thread) (time : Int)
    (n : Nat) : ∃ s, run step (start flag priority) (List.replicate (n + 1) (.take t time)) =
      some s ∧ s.mutex.owner = some t ∧ s.mutex.hold = BitVec.ofNat 8 (n + 1) ∧
      s.taken t = n + 1 ∧ s.released t = 0 ∧ s.mutex.waiters.Running t := by
  induction n with
  | zero =>
    have hrun : (start flag priority).mutex.waiters.Running t := ⟨rfl, List.not_mem_nil⟩
    obtain ⟨s, hs⟩ := exists_step_take hrun time
    obtain ⟨-, heq⟩ := step_take hs
    refine ⟨s, by simp [hs], ?_, ?_, ?_, ?_, ?_⟩ <;> rw [heq]
    · rfl
    · rfl
    · exact (counted_eok _ t t).trans (by simp [start])
    · rfl
    · exact hrun.setError .eok
  | succ n ih =>
    obtain ⟨s, hs, hown, hhold, htaken, hreleased, hrun⟩ := ih
    have htake : rtMutexTake s.mutex t time = ({ s.mutex with
        waiters := s.mutex.waiters.setError t .eok, hold := s.mutex.hold + 1 }, some .eok) :=
      if_pos hown
    obtain ⟨s', hs'⟩ := exists_step_take hrun time
    obtain ⟨-, heq⟩ := step_take hs'
    rw [htake] at heq
    refine ⟨s', ?_, ?_, ?_, ?_, ?_, ?_⟩
    · rw [List.replicate_succ', run_append, hs, Option.bind_some, run_cons, hs']
      rfl
    all_goals rw [heq]
    · exact hown
    · dsimp only
      rw [hhold]
      exact (BitVec.ofNat_add (n + 1) 1).symm
    · exact (counted_eok _ t t).trans (by simp [htaken])
    · exact hreleased
    · exact hrun.setError .eok

/-- A thread that takes a mutex 256 times is its owner with a `hold` of zero. -/
theorem hold_of_256_takes_is_zero :
    ¬ Throughout step Owned (start .prio fun _ : Unit => 10)
      (List.replicate 256 (.take () (-1))) := by
  intro h
  obtain ⟨s, hs, hown, hhold, htaken, hreleased, -⟩ :=
    run_takes .prio (fun _ : Unit => 10) () (-1) 255
  have hnested := (h.last hs).nested () hown
  rw [hhold, MutexRun.outstanding, MutexRun.succeeded, htaken, hreleased] at hnested
  have : (BitVec.ofNat 8 (255 + 1)).toNat = 0 := rfl
  omega

end ControlRTT.Kernel.Mutex

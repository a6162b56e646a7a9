import ControlRTT.Lib.Runs
import ControlRTT.Lib.CInt
import ControlRTT.Kernel.Thread

/-! # Semaphores (ipc.c)

Threads take a semaphore and wait for it, threads and interrupts release it, and
timers end waits, in any order. A take has succeeded when it returns `RT_EOK` or
when a release has handed its unit over to the waiting thread. As long as the
16-bit counter is not exceeded every unit is accounted for, and nobody waits while
one is there (`conserved_throughout_iff`). -/
namespace ControlRTT.Kernel.Semaphore
open ControlRTT.Lib.Runs ControlRTT.Kernel.Thread

structure RtSemaphore (Thread : Type) where
  value : BitVec 16
  flag : IpcFlag
  waiters : Waiters Thread

variable {Thread : Type} [DecidableEq Thread]

def rtSemInit (value : BitVec 32) (flag : IpcFlag) (waiters : Waiters Thread) :
    RtSemaphore Thread where
  value := value.setWidth 16
  flag := flag
  waiters := waiters

/-- The call up to its return, or up to `rt_schedule` if it has to wait (`none`). -/
def rtSemTake (sem : RtSemaphore Thread) (thread : Thread) (time : Int) :
    RtSemaphore Thread × Option Err :=
  if sem.value > 0 then ({ sem with value := sem.value - 1 }, some .eok)
  else if time = 0 then (sem, some .etimeout)
  else
    let w := (sem.waiters.setError thread .eok).rtIpcListSuspend sem.flag thread
    ({ sem with waiters := if time > 0 then w.startTimer thread else w }, none)

/-- The rest of a call that had to wait, from `rt_schedule` on. -/
def rtSemTakeEnd (sem : RtSemaphore Thread) (thread : Thread) : RtSemaphore Thread × Err :=
  ({ sem with waiters := sem.waiters.runAgain thread }, (sem.waiters.tcb thread).error)

def rtSemTrytake (sem : RtSemaphore Thread) (thread : Thread) :
    RtSemaphore Thread × Option Err :=
  rtSemTake sem thread 0

def rtSemRelease (sem : RtSemaphore Thread) : RtSemaphore Thread :=
  if sem.waiters.suspendThread ≠ [] then { sem with waiters := sem.waiters.rtIpcListResume }
  else { sem with value := sem.value + 1 }

/-! ## Runs -/

inductive Event (Thread : Type) where
  | take (thread : Thread) (time : Int)
  | trytake (thread : Thread)
  | release
  | timeout (thread : Thread)
  | run (thread : Thread)

/-- A semaphore, and what has happened to it since it was initialised. -/
structure SemRun (Thread : Type) where
  sem : RtSemaphore Thread
  initial : Nat
  taken : Nat := 0
  released : Nat := 0

/-- The state after a call of the take family, its return counted. -/
def SemRun.took (s : SemRun Thread) (call : RtSemaphore Thread × Option Err) :
    SemRun Thread :=
  { s with sem := call.1, taken := s.taken + if call.2 = some .eok then 1 else 0 }

/-- Only a running thread calls, only a started timer fires, and only a resumed thread
comes back from `rt_schedule`. -/
def step (s : SemRun Thread) : Event Thread → Option (SemRun Thread)
  | .take t time =>
    if s.sem.waiters.Running t then some (s.took (rtSemTake s.sem t time)) else none
  | .trytake t =>
    if s.sem.waiters.Running t then some (s.took (rtSemTrytake s.sem t)) else none
  | .release => some { s with sem := rtSemRelease s.sem, released := s.released + 1 }
  | .timeout t =>
    if (s.sem.waiters.tcb t).timer then
      some { s with sem := { s.sem with waiters := s.sem.waiters.rtThreadTimeout t } }
    else none
  | .run t =>
    if t ∈ s.sem.waiters.resumed then
      let (sem, err) := rtSemTakeEnd s.sem t
      some (s.took (sem, some err))
    else none

def start (initial : BitVec 32) (flag : IpcFlag) (priority : Thread → Nat) :
    SemRun Thread where
  sem := rtSemInit initial flag (Waiters.idle priority)
  initial := initial.toNat

/-- Takes that have returned `RT_EOK`, and takes whose unit has been handed over. -/
def SemRun.succeeded (s : SemRun Thread) : Nat :=
  s.taken + s.sem.waiters.handedOver.length

/-- The accounts of a semaphore. -/
structure Conserved (s : SemRun Thread) : Prop where
  units : s.sem.value.toNat + s.succeeded = s.initial + s.released
  nobody : 0 < s.sem.value → s.sem.waiters.suspendThread = []

/-- The step does not increase a counter that is at its largest value. -/
def Fits (s : SemRun Thread) (e : Event Thread) : Prop :=
  match e with
  | .release => s.sem.waiters.suspendThread = [] → s.sem.value ≠ 0xFFFF
  | _ => True

/-! ## The steps -/

structure Inv (s : SemRun Thread) : Prop extends Conserved s where
  ok : s.sem.waiters.Ok

theorem Inv.take {s : SemRun Thread} (h : Inv s) {t : Thread} (ht : s.sem.waiters.Running t)
    (time : Int) : Inv (s.took (rtSemTake s.sem t time)) := by
  have hunits := h.units
  unfold rtSemTake
  split
  · rename_i hpos
    refine ⟨⟨?_, fun _ => h.nobody hpos⟩, h.ok⟩
    have hval : (s.sem.value - 1).toNat = s.sem.value.toNat - 1 :=
      BitVec.toNat_sub_of_le (by bv_omega)
    have : 0 < s.sem.value.toNat := by bv_omega
    simp only [SemRun.succeeded, SemRun.took, hval, if_true] at hunits ⊢
    omega
  · rename_i hzero
    split
    · refine ⟨⟨?_, h.nobody⟩, h.ok⟩
      simpa [SemRun.succeeded, SemRun.took] using hunits
    -- the thread waits: nothing but the list changes
    · have hok := h.ok.setError ht .eok
      have hrun := ht.setError .eok
      have hsusp := hok.rtIpcListSuspend hrun (by simp [Waiters.setError]) s.sem.flag
      have hhand : ((s.sem.waiters.setError t .eok).rtIpcListSuspend s.sem.flag t).handedOver =
          s.sem.waiters.handedOver := by
        rw [Waiters.handedOver_rtIpcListSuspend _ hrun]
        exact Waiters.handedOver_setError ht .eok
      have hmem := Waiters.mem_rtIpcListSuspend s.sem.flag hrun
      refine ⟨⟨?_, fun hpos => absurd hpos hzero⟩, ?_⟩
      · simp only [SemRun.took, SemRun.succeeded, reduceCtorEq, if_false, Nat.add_zero]
        split
        · rw [Waiters.startTimer, Waiters.handedOver_setTcb _ (hsusp.notMem_resumed hmem), hhand]
          exact hunits
        · rw [hhand]
          exact hunits
      · dsimp only [SemRun.took]
        split
        · exact hsusp.startTimer hmem
        · exact hsusp

theorem Inv.release {s : SemRun Thread} (h : Inv s) (hfits : Fits s .release) :
    Inv { s with sem := rtSemRelease s.sem, released := s.released + 1 } := by
  have hunits := h.units
  unfold rtSemRelease
  split
  · rename_i hne
    have hzero : ¬ 0 < s.sem.value := fun hpos => hne (h.nobody hpos)
    cases hl : s.sem.waiters.suspendThread with
    | nil => exact absurd hl hne
    | cons t rest =>
      refine ⟨⟨?_, fun hpos => absurd hpos hzero⟩, h.ok.rtIpcListResume⟩
      simp only [SemRun.succeeded, h.ok.handedOver_rtIpcListResume hl, List.length_append,
        List.length_singleton] at hunits ⊢
      omega
  · rename_i he
    have hempty := not_not.mp he
    have hval : (s.sem.value + 1).toNat = s.sem.value.toNat + 1 := by
      have := hfits hempty
      bv_omega
    refine ⟨⟨?_, fun _ => hempty⟩, h.ok⟩
    simp only [SemRun.succeeded, hval] at hunits ⊢
    omega

theorem Inv.timeout {s : SemRun Thread} (h : Inv s) {t : Thread}
    (ht : (s.sem.waiters.tcb t).timer = true) :
    Inv { s with sem := { s.sem with waiters := s.sem.waiters.rtThreadTimeout t } } := by
  have hmem := h.ok.timer t ht
  refine ⟨⟨?_, fun hpos => ?_⟩, h.ok.rtThreadTimeout hmem⟩
  · simpa only [SemRun.succeeded, h.ok.handedOver_rtThreadTimeout hmem] using h.units
  · rw [h.nobody hpos] at hmem
    cases hmem

theorem Inv.run {s : SemRun Thread} (h : Inv s) {t : Thread}
    (ht : t ∈ s.sem.waiters.resumed) :
    Inv (s.took ({ s.sem with waiters := s.sem.waiters.runAgain t },
      some (s.sem.waiters.tcb t).error)) := by
  have hunits := h.units
  refine ⟨⟨?_, h.nobody⟩, h.ok.runAgain t⟩
  simp only [SemRun.took, SemRun.succeeded, h.ok.handedOver_runAgain t,
    Option.some.injEq] at hunits ⊢
  -- a unit that was handed over is now one that was returned
  have hiff := s.sem.waiters.mem_handedOver ht
  split
  · rename_i he
    have hmem := hiff.mpr he
    have hlen := List.length_erase_of_mem hmem
    have := List.length_pos_of_mem hmem
    omega
  · rename_i he
    rw [List.erase_of_not_mem fun hm => he (hiff.mp hm)]
    exact hunits

theorem Inv.step {s s' : SemRun Thread} {e : Event Thread} (h : Inv s) (hfits : Fits s e)
    (hstep : step s e = some s') : Inv s' := by
  cases e with
  | take t time =>
    obtain ⟨ht, ⟨⟩⟩ := Option.ite_none_right_eq_some.mp hstep
    exact h.take ht time
  | trytake t =>
    obtain ⟨ht, ⟨⟩⟩ := Option.ite_none_right_eq_some.mp hstep
    exact h.take ht 0
  | release =>
    obtain rfl := Option.some.inj hstep
    exact h.release hfits
  | timeout t =>
    obtain ⟨ht, ⟨⟩⟩ := Option.ite_none_right_eq_some.mp hstep
    exact h.timeout ht
  | run t =>
    obtain ⟨ht, ⟨⟩⟩ := Option.ite_none_right_eq_some.mp hstep
    exact h.run ht

/-- A counter that is increased at its largest value loses 65536 units. -/
theorem Inv.fits {s s' : SemRun Thread} {e : Event Thread} (h : Inv s)
    (hstep : Semaphore.step s e = some s') (hs' : Conserved s') : Fits s e := by
  cases e with
  | release =>
    obtain rfl := Option.some.inj hstep
    intro hempty hmax
    have hunits := h.units
    have hunits' := hs'.units
    simp only [rtSemRelease, hempty, ne_eq, not_true_eq_false, if_false, SemRun.succeeded,
      hmax] at hunits hunits'
    have h1 : (0xFFFF : BitVec 16).toNat = 65535 := rfl
    have h2 : ((0xFFFF : BitVec 16) + 1).toNat = 0 := rfl
    omega
  | take | trytake | timeout | run => trivial

omit [DecidableEq Thread] in
theorem inv_start {initial : BitVec 32} (hinit : initial.toNat ≤ 0xFFFF) (flag : IpcFlag)
    (priority : Thread → Nat) : Inv (start initial flag priority) where
  units := by
    have : initial.toNat % 2 ^ 16 = initial.toNat := Nat.mod_eq_of_lt (by omega)
    simpa [start, rtSemInit, SemRun.succeeded, Waiters.handedOver, Waiters.idle] using this
  nobody _ := rfl
  ok := Waiters.ok_idle priority

/-! ## Whole runs -/

/-- Whatever the threads do, the semaphore's accounts are right in every state exactly
if the initial value fits in 16 bits and no release increases a full counter. -/
theorem conserved_throughout_iff (initial : BitVec 32) (flag : IpcFlag)
    (priority : Thread → Nat) (es : List (Event Thread)) :
    Throughout step Conserved (start initial flag priority) es ↔
      initial.toNat ≤ 0xFFFF ∧ Along step Fits (start initial flag priority) es := by
  have hiff (hinit : initial.toNat ≤ 0xFFFF) :
      Throughout step Conserved (start initial flag priority) es ↔
        Along step Fits (start initial flag priority) es :=
    throughout_iff_along (fun _ h => h.toConserved) (fun _ _ _ h hfits => h.step hfits)
      (fun _ _ _ h => h.fits) (inv_start hinit flag priority) es
  refine ⟨fun h => ?_, fun ⟨hinit, h⟩ => (hiff hinit).mpr h⟩
  have hinit : initial.toNat ≤ 0xFFFF := by
    have := h.head.units
    simp only [start, rtSemInit, SemRun.succeeded, Waiters.handedOver, Waiters.idle,
      List.filter_nil, List.length_nil, Nat.add_zero, BitVec.toNat_setWidth] at this
    omega
  exact ⟨hinit, (hiff hinit).mp h⟩

/-- A full semaphore that is released is empty. -/
theorem release_of_full_loses_units :
    ¬ Throughout step Conserved (start 65535 .fifo fun _ : Unit => 10)
      [.release] := by
  intro h
  have hafter := (h.2 _ rfl).units
  revert hafter
  decide

end ControlRTT.Kernel.Semaphore

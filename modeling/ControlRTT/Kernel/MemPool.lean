import Mathlib.Data.List.Nodup
import Mathlib.Data.List.Perm.Subperm
import ControlRTT.Lib.Runs
import ControlRTT.Lib.WordMem
import ControlRTT.Kernel.RtDef
import ControlRTT.Kernel.Thread

/-! # Memory pools (mempool.c)

A pool's blocks, each behind a header word, and the threads that wait for one. A
header holds the address of the next free block, or of the pool while the block is
allocated. A call of `rt_mp_alloc` that has to wait ends at its `rt_schedule` and
goes on when the thread runs again. The counter of the waiting threads is their
number as long as no wait is ended by a timer (`counted_throughout_iff`). -/
namespace ControlRTT.Kernel.MemPool
open ControlRTT.Lib.CInt ControlRTT.Lib.Runs ControlRTT.Lib.WordMem
open ControlRTT.Kernel.RtDef ControlRTT.Kernel.Thread

/-- A thread is the address of its control block. -/
abbrev ThreadPtr := { a : BitVec 32 // a ≠ 0 }

/-- `struct rt_mempool`; the list of its waiting threads is in `Pool.waiters`. -/
structure RtMempool where
  startAddress : Nat
  size : Nat
  blockSize : Nat
  blockList : Nat
  blockTotalCount : Nat
  blockFreeCount : Nat
  suspendThreadCount : Nat

/-- A pool, its address, and what it uses; `headers` are the addresses of the header
words it has written. -/
structure Pool where
  mp : RtMempool
  self : Nat
  mem : Mem
  waiters : Waiters ThreadPtr
  headers : List Nat := []

/-- `sizeof(rt_uint8_t *)`. -/
def pointerSize : Nat := 4

def Pool.writeHeader (p : Pool) (a v : Nat) : Pool :=
  { p with mem := p.mem.set a v, headers := a :: p.headers }

/-- The loop of `rt_mp_init`: each header points to the next one. -/
def linkBlocks (start stride total : Nat) (p : Pool) : Pool :=
  (List.range total).foldl (fun p offset =>
    p.writeHeader (u32 (start + offset * stride)) (u32 (start + (offset + 1) * stride))) p

/-- The fields that `rt_mp_init` sets. -/
def unlinked (self start size blockSize total : Nat) (mem : Mem)
    (waiters : Waiters ThreadPtr) : Pool where
  mp := {
    startAddress := start
    size := size
    blockSize := blockSize
    blockList := start
    blockTotalCount := total
    blockFreeCount := total
    suspendThreadCount := 0 }
  self := self
  mem := mem
  waiters := waiters

/-- A division by zero gives zero, as the `UDIV` of the core does. -/
def rtMpInit (self start size blockSize : Nat) (mem : Mem) (waiters : Waiters ThreadPtr) :
    Pool :=
  let size := rtAlignDown size rtAlignSize
  let blockSize := rtAlign blockSize rtAlignSize
  let stride := u32 (blockSize + pointerSize)
  let total := size / stride
  let p := linkBlocks start stride total (unlinked self start size blockSize total mem waiters)
  -- behind the loop `offset` is the total, and `offset - 1` wraps around below zero
  p.writeHeader (u32 (start + u32 (total + 2 ^ 32 - 1) * stride)) 0

/-- How far a call of `rt_mp_alloc` has come: it waits, or has returned `RT_NULL` or the
block behind a header. -/
inductive Return where
  | waits
  | null
  | block (header : Nat)
  deriving DecidableEq, Repr

/-- The loop of `rt_mp_alloc` from its test on, up to the next `rt_schedule`, and what is
behind the loop. A call that fails `RT_ASSERT(block_ptr != RT_NULL)` does not return. -/
def allocPass (p : Pool) (thread : ThreadPtr) (time : BitVec 32) : Option (Pool × Return) :=
  if p.mp.blockFreeCount = 0 then
    if time = 0 then some ({ p with waiters := p.waiters.setError thread .etimeout }, .null)
    else
      let w := (p.waiters.setError thread .eok).rtThreadSuspend thread
      let w := { w with suspendThread := thread :: w.suspendThread }
      some ({ p with
        waiters := if 0 < time.toInt then w.startTimer thread else w
        mp := { p.mp with suspendThreadCount := u32 (p.mp.suspendThreadCount + 1) } }, .waits)
  else if p.mp.blockList = 0 then none
  else
    let block := p.mp.blockList
    let p := { p with mp := { p.mp with
      blockFreeCount := p.mp.blockFreeCount - 1
      blockList := p.mem block } }
    some (p.writeHeader block p.self, .block block)

def rtMpAlloc (p : Pool) (thread : ThreadPtr) (time : BitVec 32) : Option (Pool × Return) :=
  allocPass p thread time

/-- The waiting time after a wait of `elapsed` ticks. -/
def timeLeft (time elapsed : BitVec 32) : BitVec 32 :=
  if 0 < time.toInt then
    if (time - elapsed).toInt < 0 then 0 else time - elapsed
  else time

/-- A call that had to wait, from `rt_schedule` to its next one or to its return. -/
def rtMpAllocResumed (p : Pool) (thread : ThreadPtr) (time : BitVec 32) :
    Option (Pool × Return) :=
  let p' := { p with waiters := p.waiters.runAgain thread }
  if (p.waiters.tcb thread).error ≠ .eok then some (p', .null)
  else allocPass p' thread time

/-- The block behind a header that points to this pool. If the counter is not zero but
nobody waits, the head of the list is taken for a thread: what then happens to memory
is left open. -/
def rtMpFree (p : Pool) (header : Nat) : Option Pool :=
  if p.mem header ≠ p.self then none
  else
    let p := { p.writeHeader header p.mp.blockList with mp := { p.mp with
      blockFreeCount := u32 (p.mp.blockFreeCount + 1)
      blockList := header } }
    if p.mp.suspendThreadCount > 0 then
      match p.waiters.suspendThread with
      | [] => none
      | thread :: _ =>
        some { p with
          waiters := (p.waiters.setError thread .eok).rtThreadResume thread
          mp := { p.mp with suspendThreadCount := p.mp.suspendThreadCount - 1 } }
    else some p

/-! ## Runs -/

inductive Event where
  | alloc (thread : ThreadPtr) (time : BitVec 32)
  | free (header : Nat)
  | timeout (thread : ThreadPtr)
  | run (thread : ThreadPtr) (elapsed : BitVec 32)

/-- A pool, the headers of the blocks that are allocated, and the `time` of every call
that waits. -/
structure PoolRun where
  pool : Pool
  owned : List Nat := []
  time : ThreadPtr → BitVec 32 := fun _ => 0

def PoolRun.returned (s : PoolRun) (thread : ThreadPtr) (time : BitVec 32)
    (call : Pool × Return) : PoolRun where
  pool := call.1
  owned :=
    match call.2 with
    | .block header => header :: s.owned
    | _ => s.owned
  time t := if t = thread then time else s.time t

/-- Only a running thread calls, only owned blocks are freed, only a started timer fires,
and only a resumed thread comes back from `rt_schedule`. -/
def step (s : PoolRun) : Event → Option PoolRun
  | .alloc t time =>
    if s.pool.waiters.Running t then (rtMpAlloc s.pool t time).map (s.returned t time)
    else none
  | .free header =>
    if header ∈ s.owned then
      (rtMpFree s.pool header).map fun p =>
        { s with pool := p, owned := s.owned.erase header }
    else none
  | .timeout t =>
    if (s.pool.waiters.tcb t).timer then
      some { s with pool := { s.pool with waiters := s.pool.waiters.rtThreadTimeout t } }
    else none
  | .run t elapsed =>
    if t ∈ s.pool.waiters.resumed then
      let time := timeLeft (s.time t) elapsed
      (rtMpAllocResumed s.pool t time).map (s.returned t time)
    else none

/-- A pool just initialised, while nobody waits for it. -/
def start (self startAddress size blockSize : Nat) (mem : Mem) (priority : ThreadPtr → Nat) :
    PoolRun where
  pool := rtMpInit self startAddress size blockSize mem (Waiters.idle priority)

/-! ## The counter of the waiting threads -/

/-- The counter is the number of waiting threads, so that a thread is only resumed when
one waits. -/
structure Counted (s : PoolRun) : Prop where
  count : s.pool.mp.suspendThreadCount = s.pool.waiters.suspendThread.length
  resumes : 0 < s.pool.mp.suspendThreadCount → s.pool.waiters.suspendThread ≠ []

/-- The step is not a timer that ends a wait. -/
def NoExpiry (_ : PoolRun) (e : Event) : Prop :=
  match e with
  | .timeout _ => False
  | _ => True

/-- What a pool's waiting threads and their counter keep. -/
structure Waiting (p : Pool) : Prop where
  ok : p.waiters.Ok
  count : p.mp.suspendThreadCount = p.waiters.suspendThread.length

theorem Waiting.counted {s : PoolRun} (h : Waiting s.pool) : Counted s where
  count := h.count
  resumes hpos hnil := by
    rw [h.count, hnil] at hpos
    exact absurd hpos (by simp)

/-- Each waiting thread has its own address, and none is at zero. -/
theorem length_lt_of_nodup {l : List ThreadPtr} (h : l.Nodup) : l.length < 2 ^ 32 := by
  have hsub : l.map (·.val.toNat) ⊆ (List.range (2 ^ 32 - 1)).map (· + 1) := by
    intro n hn
    obtain ⟨t, -, rfl⟩ := List.mem_map.mp hn
    have hne : t.val.toNat ≠ 0 := fun h0 => t.property (BitVec.eq_of_toNat_eq h0)
    have := t.val.isLt
    exact List.mem_map.mpr ⟨t.val.toNat - 1, List.mem_range.mpr (by omega), by omega⟩
  have hinj : Function.Injective fun t : ThreadPtr => t.val.toNat := fun t u htu =>
    Subtype.ext (BitVec.eq_of_toNat_eq htu)
  have hnd : (l.map (·.val.toNat)).Nodup := List.Nodup.map hinj h
  have hle := (hnd.subperm hsub).length_le
  rw [List.length_map, List.length_map, List.length_range] at hle
  omega

theorem Waiting.allocPass {p p' : Pool} (h : Waiting p) {t : ThreadPtr}
    (ht : p.waiters.Running t) {time : BitVec 32} {r : Return}
    (hp : allocPass p t time = some (p', r)) : Waiting p' := by
  have hok := h.ok.setError ht .eok
  unfold MemPool.allocPass at hp
  split at hp
  · split at hp
    · obtain ⟨rfl, -⟩ := Prod.mk.inj (Option.some.inj hp)
      exact ⟨h.ok.setError ht .etimeout, h.count⟩
    -- the thread waits
    · obtain ⟨rfl, -⟩ := Prod.mk.inj (Option.some.inj hp)
      have hrun := ht.setError .eok
      have herr : ((p.waiters.setError t .eok).tcb t).error = .eok := by
        simp [Waiters.setError]
      have hsusp := hok.suspended hrun (b := { (p.waiters.setError t .eok).tcb t with
        stat := .suspend, timer := false }) rfl herr (.refl (t :: p.waiters.suspendThread))
      have heq : (p.waiters.setError t .eok).rtThreadSuspend t =
          (p.waiters.setError t .eok).setTcb t
            { (p.waiters.setError t .eok).tcb t with stat := .suspend, timer := false } :=
        if_neg (not_not_intro hrun.1)
      have hlen := length_lt_of_nodup (List.nodup_append.mp hsusp.nodup).1
      rw [heq]
      refine ⟨?_, ?_⟩
      · dsimp only
        split
        · exact hsusp.startTimer List.mem_cons_self
        · exact hsusp
      · have : u32 (p.mp.suspendThreadCount + 1) = (t :: p.waiters.suspendThread).length := by
          rw [h.count]
          exact u32_of_lt hlen
        dsimp only
        split <;> exact this
  · split at hp
    · cases hp
    · obtain ⟨rfl, -⟩ := Prod.mk.inj (Option.some.inj hp)
      exact ⟨h.ok, h.count⟩

theorem Waiting.allocResumed {p p' : Pool} (h : Waiting p) {t : ThreadPtr}
    (ht : t ∈ p.waiters.resumed) {time : BitVec 32} {r : Return}
    (hp : rtMpAllocResumed p t time = some (p', r)) : Waiting p' := by
  have h' : Waiting { p with waiters := p.waiters.runAgain t } := ⟨h.ok.runAgain t, h.count⟩
  unfold rtMpAllocResumed at hp
  dsimp only at hp
  split at hp
  · obtain ⟨rfl, -⟩ := Prod.mk.inj (Option.some.inj hp)
    exact h'
  · exact h'.allocPass (h.ok.running_runAgain ht) hp

theorem Waiting.free {p p' : Pool} (h : Waiting p) {header : Nat}
    (hp : rtMpFree p header = some p') : Waiting p' := by
  unfold rtMpFree at hp
  split at hp
  · cases hp
  · dsimp only [Pool.writeHeader] at hp
    split at hp
    · split at hp
      · cases hp
      · rename_i t rest hl
        obtain rfl := Option.some.inj hp
        have hmem : t ∈ p.waiters.suspendThread := hl ▸ List.mem_cons_self
        have hres : (p.waiters.setError t .eok).rtThreadResume t = p.waiters.rtIpcListResume := by
          rw [h.ok.setError_waiting hmem, Waiters.rtIpcListResume, hl]
        rw [hres]
        refine ⟨h.ok.rtIpcListResume, ?_⟩
        dsimp only
        rw [h.ok.rtIpcListResume_cons hl, h.count, hl, List.length_cons, Nat.add_sub_cancel]
    · obtain rfl := Option.some.inj hp
      exact ⟨h.ok, h.count⟩

theorem step_alloc {s s' : PoolRun} {t : ThreadPtr} {time : BitVec 32}
    (h : step s (.alloc t time) = some s') : s.pool.waiters.Running t ∧
      ∃ call, rtMpAlloc s.pool t time = some call ∧ s' = s.returned t time call := by
  obtain ⟨ht, heq⟩ := Option.ite_none_right_eq_some.mp h
  obtain ⟨call, hcall, heq⟩ := Option.map_eq_some_iff.mp heq
  exact ⟨ht, call, hcall, heq.symm⟩

theorem step_free {s s' : PoolRun} {header : Nat} (h : step s (.free header) = some s') :
    header ∈ s.owned ∧ ∃ p, rtMpFree s.pool header = some p ∧
      s' = { s with pool := p, owned := s.owned.erase header } := by
  obtain ⟨ht, heq⟩ := Option.ite_none_right_eq_some.mp h
  obtain ⟨p, hp, heq⟩ := Option.map_eq_some_iff.mp heq
  exact ⟨ht, p, hp, heq.symm⟩

theorem step_timeout {s s' : PoolRun} {t : ThreadPtr} (h : step s (.timeout t) = some s') :
    (s.pool.waiters.tcb t).timer = true ∧
      s' = { s with pool := { s.pool with waiters := s.pool.waiters.rtThreadTimeout t } } := by
  obtain ⟨ht, heq⟩ := Option.ite_none_right_eq_some.mp h
  exact ⟨ht, (Option.some.inj heq).symm⟩

theorem step_run {s s' : PoolRun} {t : ThreadPtr} {elapsed : BitVec 32}
    (h : step s (.run t elapsed) = some s') : t ∈ s.pool.waiters.resumed ∧
      ∃ call, rtMpAllocResumed s.pool t (timeLeft (s.time t) elapsed) = some call ∧
        s' = s.returned t (timeLeft (s.time t) elapsed) call := by
  obtain ⟨ht, heq⟩ := Option.ite_none_right_eq_some.mp h
  obtain ⟨call, hcall, heq⟩ := Option.map_eq_some_iff.mp heq
  exact ⟨ht, call, hcall, heq.symm⟩

theorem Waiting.step {s s' : PoolRun} {e : Event} (h : Waiting s.pool) (hno : NoExpiry s e)
    (hstep : step s e = some s') : Waiting s'.pool := by
  cases e with
  | alloc t time =>
    obtain ⟨ht, call, hcall, rfl⟩ := step_alloc hstep
    exact h.allocPass ht hcall
  | free header =>
    obtain ⟨-, p, hp, rfl⟩ := step_free hstep
    exact h.free hp
  | timeout t => exact hno.elim
  | run t elapsed =>
    obtain ⟨ht, call, hcall, rfl⟩ := step_run hstep
    exact h.allocResumed ht hcall

/-- A wait that is ended by its timer leaves the list, and stays counted. -/
theorem Waiting.noExpiry {s s' : PoolRun} {e : Event} (h : Waiting s.pool)
    (hstep : MemPool.step s e = some s') (hs' : Counted s') : NoExpiry s e := by
  cases e with
  | timeout t =>
    obtain ⟨ht, rfl⟩ := step_timeout hstep
    have hmem := h.ok.timer t ht
    have hcount := hs'.count
    have hlen := Waiters.length_rtThreadTimeout hmem
    have hold := h.count
    dsimp only at hcount
    omega
  | alloc | free | run => trivial

/-- Linking the blocks writes headers and nothing else. -/
theorem linkBlocks_frame (start stride total : Nat) (p : Pool) :
    (linkBlocks start stride total p).mp = p.mp ∧
      (linkBlocks start stride total p).self = p.self ∧
      (linkBlocks start stride total p).waiters = p.waiters := by
  unfold linkBlocks
  generalize List.range total = offsets
  induction offsets generalizing p with
  | nil => exact ⟨rfl, rfl, rfl⟩
  | cons offset rest ih => exact ih (p.writeHeader _ _)

theorem rtMpInit_frame (self start size blockSize : Nat) (mem : Mem)
    (w : Waiters ThreadPtr) : (rtMpInit self start size blockSize mem w).waiters = w ∧
      (rtMpInit self start size blockSize mem w).mp.suspendThreadCount = 0 ∧
      (rtMpInit self start size blockSize mem w).mp.blockList = start ∧
      (rtMpInit self start size blockSize mem w).mp.blockFreeCount =
        rtAlignDown size rtAlignSize / u32 (rtAlign blockSize rtAlignSize + pointerSize) := by
  unfold rtMpInit
  dsimp only [Pool.writeHeader]
  simp only [linkBlocks_frame, unlinked, and_self]

theorem waiting_start (self startAddress size blockSize : Nat) (mem : Mem)
    (priority : ThreadPtr → Nat) :
    Waiting (start self startAddress size blockSize mem priority).pool := by
  obtain ⟨hw, hc, -⟩ := rtMpInit_frame self startAddress size blockSize mem
    (Waiters.idle priority)
  refine ⟨?_, ?_⟩
  · exact hw ▸ Waiters.ok_idle priority
  · exact hc.trans (by rw [start, hw]; rfl)

/-- Whatever the threads do with a pool, its counter of waiting threads is right in every
state exactly if no timer ends a wait. -/
theorem counted_throughout_iff (self startAddress size blockSize : Nat) (mem : Mem)
    (priority : ThreadPtr → Nat) (es : List Event) :
    Throughout step Counted (start self startAddress size blockSize mem priority) es ↔
      Along step NoExpiry (start self startAddress size blockSize mem priority) es :=
  throughout_iff_along (J := fun s => Waiting s.pool) (fun _ h => h.counted)
    (fun _ _ _ h hno => h.step hno) (fun _ _ _ h => h.noExpiry)
    (waiting_start self startAddress size blockSize mem priority) es

/-- One block, a thread that takes it, and a thread whose wait for it times out: nobody
waits, and one thread is counted. -/
theorem timeout_stays_counted :
    ¬ Throughout step Counted (start 0x100 0x1000 8 4 (fun _ => 0) fun _ => 10)
      [.alloc ⟨1, by decide⟩ 0, .alloc ⟨2, by decide⟩ 10, .timeout ⟨2, by decide⟩] := by
  intro h
  have hrun : (run step (start 0x100 0x1000 8 4 (fun _ => 0) fun _ => 10)
      [.alloc ⟨1, by decide⟩ 0, .alloc ⟨2, by decide⟩ 10, .timeout ⟨2, by decide⟩]).map
        (fun s => (s.pool.mp.suspendThreadCount, s.pool.waiters.suspendThread.length)) =
      some (1, 0) := by decide
  obtain ⟨s, hs, hvals⟩ := Option.map_eq_some_iff.mp hrun
  obtain ⟨hcount, hlen⟩ := Prod.mk.inj hvals
  have := (h.last hs).count
  omega

end ControlRTT.Kernel.MemPool

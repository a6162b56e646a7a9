import ControlRTT.Lib.Ring
import ControlRTT.Lib.Runs
import ControlRTT.Kernel.WaitLists

/-! # Mailboxes (ipc.c)

A ring of words with a wait list at each end. A thread that is resumed finds the ring as
the threads that ran before it have left it, so it may have to wait again. What is
received is what has been sent, in that order, and once all resumed threads have run
nobody waits in vain (`served_throughout`). -/
namespace ControlRTT.Kernel.Mailbox
open ControlRTT.Lib ControlRTT.Lib.Runs ControlRTT.Kernel.Thread

/-- `suspend_thread` has the receivers, `suspend_sender_thread` the senders. -/
inductive Side where
  | receivers
  | senders
  deriving DecidableEq, Repr

def Side.other : Side → Side
  | .receivers => .senders
  | .senders => .receivers

/-- A call that waits, with the time that it has left. -/
inductive Call where
  | send (value : BitVec 32) (timeout : Int)
  | recv (timeout : Int)

def Call.side : Call → Side
  | .send _ _ => .senders
  | .recv _ => .receivers

def Call.timeout : Call → Int
  | .send _ timeout => timeout
  | .recv timeout => timeout

/-- What `rt_mb_send_wait` returns. -/
inductive Status where
  | eok
  | efull
  | ended (e : Err)
  deriving DecidableEq, Repr

structure RtMailbox (Thread : Type) where
  flag : IpcFlag
  msgPool : Nat → BitVec 32
  size : BitVec 16
  entry : BitVec 16 := 0
  inOffset : BitVec 16 := 0
  outOffset : BitVec 16 := 0
  lists : WaitLists Side Thread
  call : Thread → Option Call := fun _ => none

def next (size offset : BitVec 16) : BitVec 16 := if offset + 1 ≥ size then 0 else offset + 1

variable {Thread : Type} [DecidableEq Thread]

namespace RtMailbox

def setError (mb : RtMailbox Thread) (t : Thread) (e : Err) : RtMailbox Thread :=
  { mb with lists := mb.lists.setError t e }

/-- The call goes to the list of its side, up to `rt_schedule`. -/
def wait (mb : RtMailbox Thread) (t : Thread) (c : Call) : RtMailbox Thread :=
  { mb with
    call := Function.update mb.call t (some c)
    lists := (mb.lists.rtIpcListSuspend c.side mb.flag t).startTimer t c.timeout }

def wake (mb : RtMailbox Thread) (side : Side) : RtMailbox Thread :=
  { mb with lists := mb.lists.rtIpcListResume side }

def store (mb : RtMailbox Thread) (value : BitVec 32) : RtMailbox Thread :=
  { mb with
    msgPool := Function.update mb.msgPool mb.inOffset.toNat value
    inOffset := next mb.size mb.inOffset
    entry := mb.entry + 1 }

def take (mb : RtMailbox Thread) : RtMailbox Thread :=
  { mb with
    outOffset := next mb.size mb.outOffset
    entry := mb.entry - 1 }

/-- A turn of the loop, and what follows the loop; `none` is up to `rt_schedule`. -/
def sendTurn (mb : RtMailbox Thread) (t : Thread) (value : BitVec 32) (timeout : Int) :
    RtMailbox Thread × Option Status :=
  if mb.entry = mb.size then
    if timeout = 0 then (mb.setError t .eok, some .efull)
    else ((mb.setError t .eok).wait t (.send value timeout), none)
  else ((mb.store value).wake .receivers, some .eok)

def rtMbSendWait (mb : RtMailbox Thread) (t : Thread) (value : BitVec 32) (timeout : Int) :
    RtMailbox Thread × Option Status :=
  if mb.entry = mb.size ∧ timeout = 0 then (mb, some .efull) else mb.sendTurn t value timeout

def recvTurn (mb : RtMailbox Thread) (t : Thread) (timeout : Int) :
    RtMailbox Thread × Option (Except Err (BitVec 32)) :=
  if mb.entry = 0 then
    if timeout = 0 then ((mb.setError t .eok).setError t .etimeout, some (.error .etimeout))
    else ((mb.setError t .eok).wait t (.recv timeout), none)
  else (mb.take.wake .senders, some (.ok (mb.msgPool mb.outOffset.toNat)))

def rtMbRecv (mb : RtMailbox Thread) (t : Thread) (timeout : Int) :
    RtMailbox Thread × Option (Except Err (BitVec 32)) :=
  if mb.entry = 0 ∧ timeout = 0 then (mb, some (.error .etimeout)) else mb.recvTurn t timeout

def runAgain (mb : RtMailbox Thread) (t : Thread) : RtMailbox Thread :=
  { mb with lists := mb.lists.runAgain t }

/-- A send comes back from `rt_schedule`. -/
def sendAgain (mb : RtMailbox Thread) (t : Thread) (value : BitVec 32) (timeout : Int)
    (elapsed : BitVec 32) : RtMailbox Thread × Option Status :=
  if (mb.lists.tcb t).error ≠ .eok then
    (mb.runAgain t, some (.ended (mb.lists.tcb t).error))
  else (mb.runAgain t).sendTurn t value (timeLeft timeout elapsed)

def recvAgain (mb : RtMailbox Thread) (t : Thread) (timeout : Int) (elapsed : BitVec 32) :
    RtMailbox Thread × Option (Except Err (BitVec 32)) :=
  if (mb.lists.tcb t).error ≠ .eok then
    (mb.runAgain t, some (.error (mb.lists.tcb t).error))
  else (mb.runAgain t).recvTurn t (timeLeft timeout elapsed)

end RtMailbox

inductive Event (Thread : Type) where
  | send (t : Thread) (value : BitVec 32) (timeout : Int)
  | recv (t : Thread) (timeout : Int)
  | timeout (t : Thread)
  | run (t : Thread) (elapsed : BitVec 32)

/-- A mailbox, with the mails of the sends and receives that have returned `RT_EOK`, in
their order. `asked` is the mail that a thread called its send with when it has to wait. -/
structure Observed (Thread : Type) where
  mailbox : RtMailbox Thread
  sent : List (BitVec 32) := []
  received : List (BitVec 32) := []
  asked : Thread → BitVec 32 := fun _ => 0

namespace Observed

/-- A send of `value` by `t`, or a part of it. -/
def sending (o : Observed Thread) (t : Thread) (value : BitVec 32)
    (result : RtMailbox Thread × Option Status) : Observed Thread :=
  { o with
    mailbox := result.1
    sent := if result.2 = some .eok then o.sent ++ [value] else o.sent
    asked := if result.2 = none then Function.update o.asked t value else o.asked }

def receiving (o : Observed Thread)
    (result : RtMailbox Thread × Option (Except Err (BitVec 32))) : Observed Thread :=
  { o with
    mailbox := result.1
    received :=
      match result.2 with
      | some (.ok value) => o.received ++ [value]
      | _ => o.received }

end Observed

/-- Only a running thread may wait, only a started timer fires, and only a resumed thread
comes back from `rt_schedule`. An interrupt handler may call with no waiting time. -/
def step (o : Observed Thread) : Event Thread → Option (Observed Thread)
  | .send t value timeout =>
    if timeout = 0 ∨ o.mailbox.lists.Running t then
      some (o.sending t value (o.mailbox.rtMbSendWait t value timeout))
    else none
  | .recv t timeout =>
    if timeout = 0 ∨ o.mailbox.lists.Running t then
      some (o.receiving (o.mailbox.rtMbRecv t timeout))
    else none
  | .timeout t =>
    if (o.mailbox.lists.tcb t).timer then
      some { o with mailbox :=
        { o.mailbox with lists := o.mailbox.lists.rtThreadTimeout t } }
    else none
  | .run t elapsed =>
    if t ∈ o.mailbox.lists.resumed then
      match o.mailbox.call t with
      | some (.send value timeout) =>
        some (o.sending t (o.asked t) (o.mailbox.sendAgain t value timeout elapsed))
      | some (.recv timeout) => some (o.receiving (o.mailbox.recvAgain t timeout elapsed))
      | none => none
    else none

/-- `rt_mb_init`. -/
def start (flag : IpcFlag) (msgPool : Nat → BitVec 32) (size : BitVec 16)
    (priority : Thread → Nat) : Observed Thread where
  mailbox := {
    flag := flag
    msgPool := msgPool
    size := size
    lists := WaitLists.idle priority }

/-- The mails in the ring. -/
def contents (mb : RtMailbox Thread) : List (BitVec 32) :=
  Ring.contents mb.msgPool mb.size.toNat mb.outOffset.toNat mb.entry.toNat

/-- Every mail that has been sent has been received or is in the ring, in its order; when
no resumed thread has yet to run, nobody waits for what is there. -/
structure Served (o : Observed Thread) : Prop where
  fifo : o.sent = o.received ++ contents o.mailbox
  entry_le : o.mailbox.entry ≤ o.mailbox.size
  receivers : o.mailbox.lists.resumed = [] → o.mailbox.entry > 0 →
    o.mailbox.lists.list .receivers = []
  senders : o.mailbox.lists.resumed = [] → o.mailbox.entry < o.mailbox.size →
    o.mailbox.lists.list .senders = []

/-! ## The ring -/

structure RingOk (mb : RtMailbox Thread) : Prop where
  entry_le : mb.entry.toNat ≤ mb.size.toNat
  out_lt : 0 < mb.size.toNat → mb.outOffset.toNat < mb.size.toNat
  in_eq : mb.inOffset.toNat = (mb.outOffset.toNat + mb.entry.toNat) % mb.size.toNat

theorem next_toNat {size offset : BitVec 16} (h : offset.toNat < size.toNat) :
    (next size offset).toNat = (offset.toNat + 1) % size.toNat := by
  have hsucc : (offset + 1).toNat = offset.toNat + 1 := by bv_omega
  rw [← Ring.next_eq h, next]
  by_cases hge : offset + 1 ≥ size
  · rw [if_pos hge, if_pos (hsucc ▸ BitVec.le_def.mp hge)]
    rfl
  · rw [if_neg hge, if_neg fun hle => hge (BitVec.le_def.mpr (hsucc ▸ hle)), hsucc]

/-- What the waiting threads of a side wait for. -/
def available (mb : RtMailbox Thread) : Side → Nat
  | .receivers => mb.entry.toNat
  | .senders => mb.size.toNat - mb.entry.toNat

omit [DecidableEq Thread] in
theorem RingOk.store {mb : RtMailbox Thread} (h : RingOk mb) (hne : mb.entry ≠ mb.size)
    (value : BitVec 32) : RingOk (mb.store value) ∧
      contents (mb.store value) = contents mb ++ [value] ∧
      available mb .senders = available (mb.store value) .senders + 1 ∧
      available (mb.store value) .receivers = available mb .receivers + 1 := by
  have hlt : mb.entry.toNat < mb.size.toNat :=
    h.entry_le.lt_of_ne fun heq => hne (BitVec.eq_of_toNat_eq heq)
  have hpos : 0 < mb.size.toNat := Nat.zero_lt_of_lt hlt
  have hentry : (mb.entry + 1).toNat = mb.entry.toNat + 1 := by bv_omega
  have hin : mb.inOffset.toNat < mb.size.toNat := h.in_eq ▸ Nat.mod_lt _ hpos
  refine ⟨⟨?_, h.out_lt, ?_⟩, ?_, ?_, hentry⟩
  · exact hentry.trans_le hlt
  · refine (next_toNat hin).trans ?_
    rw [h.in_eq, Nat.mod_add_mod, Nat.add_assoc]
    exact congrArg (fun n => (mb.outOffset.toNat + n) % mb.size.toNat) hentry.symm
  · unfold contents RtMailbox.store
    dsimp only
    rw [hentry, h.in_eq, Ring.contents_push _ _ _ hlt]
  · change mb.size.toNat - mb.entry.toNat = mb.size.toNat - (mb.entry + 1).toNat + 1
    omega

omit [DecidableEq Thread] in
theorem RingOk.take {mb : RtMailbox Thread} (h : RingOk mb) (hne : mb.entry ≠ 0) :
    RingOk mb.take ∧
      contents mb = mb.msgPool mb.outOffset.toNat :: contents mb.take ∧
      available mb .receivers = available mb.take .receivers + 1 ∧
      available mb.take .senders = available mb .senders + 1 := by
  have hle := h.entry_le
  have hentry : mb.entry.toNat = (mb.entry - 1).toNat + 1 := by bv_omega
  have hpos : 0 < mb.size.toNat := by omega
  have hout := h.out_lt hpos
  have hnext := next_toNat hout
  refine ⟨⟨?_, fun _ => ?_, ?_⟩, ?_, hentry, ?_⟩
  · change (mb.entry - 1).toNat ≤ mb.size.toNat
    omega
  · exact hnext.trans_lt (Nat.mod_lt _ hpos)
  · refine h.in_eq.trans ?_
    change _ = ((next mb.size mb.outOffset).toNat + (mb.entry - 1).toNat) % mb.size.toNat
    rw [hnext, Nat.mod_add_mod, hentry]
    exact congrArg (· % mb.size.toNat) (by omega)
  · unfold contents RtMailbox.take
    dsimp only
    rw [hnext, hentry, Ring.contents_pop, Nat.mod_eq_of_lt hout]
  · change mb.size.toNat - (mb.entry - 1).toNat = mb.size.toNat - mb.entry.toNat + 1
    omega

/-! ## Waiting threads -/

/-- The thread has been resumed for what its side waits for. -/
def Pending (mb : RtMailbox Thread) (side : Side) (t : Thread) : Prop :=
  (mb.lists.tcb t).error = .eok ∧ (mb.call t).map Call.side = some side

instance (mb : RtMailbox Thread) (side : Side) (t : Thread) : Decidable (Pending mb side t) :=
  inferInstanceAs (Decidable (_ ∧ _))

/-- The resumed threads of a side. -/
def pending (mb : RtMailbox Thread) (side : Side) : Nat :=
  mb.lists.resumed.countP fun t => decide (Pending mb side t)

/-- `slack` is what a thread that is being served is about to take. -/
structure Inv (slack : Side → Nat) (o : Observed Thread) : Prop where
  lists : o.mailbox.lists.Ok
  calls : ∀ side, ∀ t ∈ o.mailbox.lists.list side,
    (o.mailbox.call t).map Call.side = some side
  ring : RingOk o.mailbox
  fifo : o.sent = o.received ++ contents o.mailbox
  room : ∀ side, o.mailbox.lists.list side ≠ [] →
    available o.mailbox side ≤ pending o.mailbox side + slack side

def noSlack : Side → Nat := fun _ => 0

def slackOf (side : Side) : Side → Nat := fun side' => if side' = side then 1 else 0

omit [DecidableEq Thread] in
theorem pending_congr {mb mb' : RtMailbox Thread} {side : Side}
    (hres : mb'.lists.resumed = mb.lists.resumed)
    (hsame : ∀ t ∈ mb.lists.resumed, Pending mb' side t ↔ Pending mb side t) :
    pending mb' side = pending mb side := by
  unfold pending
  rw [hres]
  exact List.countP_congr fun t ht => by simp only [decide_eq_true_eq, hsame t ht]

theorem running_setError {mb : RtMailbox Thread} {t : Thread} (hrun : mb.lists.Running t) :
    (mb.setError t .eok).lists.Running t ∧
      ((mb.setError t .eok).lists.tcb t).error = .eok := by
  have hself : (mb.setError t .eok).lists.tcb t = { mb.lists.tcb t with error := .eok } :=
    WaitLists.setTcb_self _ _ _
  exact ⟨⟨(congrArg Tcb.stat hself).trans hrun.1, hrun.2⟩, congrArg Tcb.error hself⟩

/-- A send that waits will store what it was called with. -/
def Asked (o : Observed Thread) : Prop :=
  ∀ t value timeout, o.mailbox.call t = some (.send value timeout) → o.asked t = value

namespace Asked
variable {o o' : Observed Thread}

theorem sendTurn (h : Asked o) {mb : RtMailbox Thread} (hmb : mb.call = o.mailbox.call)
    (t : Thread) (value : BitVec 32) (timeout : Int) :
    Asked (o.sending t value (mb.sendTurn t value timeout)) := by
  unfold Observed.sending RtMailbox.sendTurn
  by_cases hfull : mb.entry = mb.size
  · rw [if_pos hfull]
    by_cases hnow : timeout = 0
    · rw [if_pos hnow]
      intro u value' timeout' hcall
      exact h u value' timeout' (hmb ▸ hcall)
    · rw [if_neg hnow]
      intro u value' timeout' hcall
      change Function.update mb.call t (some (.send value timeout)) u = _ at hcall
      change Function.update o.asked t value u = value'
      by_cases hut : u = t
      · subst hut
        rw [Function.update_self] at hcall ⊢
        exact (Call.send.inj (Option.some.inj hcall)).1
      · rw [Function.update_of_ne hut] at hcall ⊢
        exact h u value' timeout' (hmb ▸ hcall)
  · rw [if_neg hfull]
    intro u value' timeout' hcall
    exact h u value' timeout' (hmb ▸ hcall)

theorem recvTurn (h : Asked o) {mb : RtMailbox Thread} (hmb : mb.call = o.mailbox.call)
    (t : Thread) (timeout : Int) : Asked (o.receiving (mb.recvTurn t timeout)) := by
  unfold Observed.receiving RtMailbox.recvTurn
  by_cases hempty : mb.entry = 0
  · rw [if_pos hempty]
    by_cases hnow : timeout = 0
    · rw [if_pos hnow]
      intro u value' timeout' hcall
      exact h u value' timeout' (hmb ▸ hcall)
    · rw [if_neg hnow]
      intro u value' timeout' hcall
      change Function.update mb.call t (some (.recv timeout)) u = _ at hcall
      by_cases hut : u = t
      · subst hut
        rw [Function.update_self] at hcall
        cases hcall
      · rw [Function.update_of_ne hut] at hcall
        exact h u value' timeout' (hmb ▸ hcall)
  · rw [if_neg hempty]
    intro u value' timeout' hcall
    exact h u value' timeout' (hmb ▸ hcall)

theorem sendAgain (h : Asked o) (t : Thread) (value : BitVec 32) (timeout : Int)
    (elapsed : BitVec 32) :
    Asked (o.sending t value (o.mailbox.sendAgain t value timeout elapsed)) := by
  unfold RtMailbox.sendAgain
  split
  · exact h
  · exact h.sendTurn (rfl : (o.mailbox.runAgain t).call = o.mailbox.call) t value _

theorem step {e : Event Thread} (h : Asked o) (hstep : step o e = some o') : Asked o' := by
  cases e with
  | send t value timeout =>
    obtain ⟨-, heq⟩ := Option.ite_none_right_eq_some.mp hstep
    obtain rfl := Option.some.inj heq
    unfold RtMailbox.rtMbSendWait
    split
    · exact h
    · exact h.sendTurn rfl t value timeout
  | recv t timeout =>
    obtain ⟨-, heq⟩ := Option.ite_none_right_eq_some.mp hstep
    obtain rfl := Option.some.inj heq
    unfold RtMailbox.rtMbRecv
    split
    · exact h
    · exact h.recvTurn rfl t timeout
  | timeout t =>
    obtain ⟨-, heq⟩ := Option.ite_none_right_eq_some.mp hstep
    obtain rfl := Option.some.inj heq
    exact h
  | run t elapsed =>
    obtain ⟨-, heq⟩ := Option.ite_none_right_eq_some.mp hstep
    cases hcall : o.mailbox.call t with
    | none =>
      rw [hcall] at heq
      cases heq
    | some c =>
      rw [hcall] at heq
      cases c with
      | send value timeout =>
        obtain rfl := Option.some.inj heq
        rw [h t value timeout hcall]
        exact h.sendAgain t value timeout elapsed
      | recv timeout =>
        obtain rfl := Option.some.inj heq
        unfold RtMailbox.recvAgain
        split
        · exact h
        · exact h.recvTurn (rfl : (o.mailbox.runAgain t).call = o.mailbox.call) t _

end Asked

namespace Inv
variable {o : Observed Thread} {t : Thread} {side : Side}

omit [DecidableEq Thread] in
theorem mono (h : Inv noSlack o) (slack : Side → Nat) : Inv slack o :=
  ⟨h.lists, h.calls, h.ring, h.fifo, fun side hne =>
    (h.room side hne).trans (Nat.add_le_add_left (Nat.zero_le _) _)⟩

omit [DecidableEq Thread] in
theorem asking {slack : Side → Nat} (h : Inv slack o) (asked : Thread → BitVec 32) :
    Inv slack { o with asked := asked } :=
  ⟨h.lists, h.calls, h.ring, h.fifo, h.room⟩

omit [DecidableEq Thread] in
/-- There is nothing to take. -/
theorem settle (h : Inv (slackOf side) o) (hzero : available o.mailbox side = 0) :
    Inv noSlack o := by
  refine ⟨h.lists, h.calls, h.ring, h.fifo, fun side' hne => ?_⟩
  by_cases hs : side' = side
  · subst hs
    rw [hzero]
    exact Nat.zero_le _
  · have := h.room side' hne
    rwa [slackOf, if_neg hs] at this

theorem setError {slack : Side → Nat} (h : Inv slack o) (hrun : o.mailbox.lists.Running t)
    (e : Err) : Inv slack { o with mailbox := o.mailbox.setError t e } := by
  have hpending : ∀ side, pending (o.mailbox.setError t e) side = pending o.mailbox side := by
    intro side
    refine pending_congr rfl fun u hu => ?_
    have hut : u ≠ t := fun hut => hrun.2 (hut ▸ hu)
    unfold Pending RtMailbox.setError WaitLists.setError
    rw [WaitLists.setTcb_ne _ _ hut]
  refine ⟨h.lists.setError hrun.1 e, h.calls,
    ⟨h.ring.entry_le, h.ring.out_lt, h.ring.in_eq⟩, h.fifo, fun side hne => ?_⟩
  rw [hpending]
  exact h.room side hne

/-- There is nothing to take, and the call waits. -/
theorem wait {c : Call} (h : Inv (slackOf c.side) o) (hrun : o.mailbox.lists.Running t)
    (herr : (o.mailbox.lists.tcb t).error = .eok)
    (hzero : available o.mailbox c.side = 0) :
    Inv noSlack { o with mailbox := o.mailbox.wait t c } := by
  have hok := h.lists.rtIpcListSuspend hrun herr c.side o.mailbox.flag
  have hmem : ∀ side u, u ∈ (o.mailbox.wait t c).lists.list side →
      (u = t ∧ side = c.side) ∨ u ≠ t ∧ u ∈ o.mailbox.lists.list side := by
    intro side u hu
    rw [RtMailbox.wait, WaitLists.list_startTimer,
      WaitLists.mem_rtIpcListSuspend hrun.1] at hu
    exact hu.imp_right fun hu => ⟨fun hut => h.lists.ready_notMem hrun.1 side (hut ▸ hu), hu⟩
  have hres : (o.mailbox.wait t c).lists.resumed = o.mailbox.lists.resumed := by
    rw [RtMailbox.wait, WaitLists.resumed_startTimer,
      WaitLists.resumed_rtIpcListSuspend hrun.1]
  have hpending : ∀ side, pending (o.mailbox.wait t c) side = pending o.mailbox side := by
    intro side
    refine pending_congr hres fun u hu => ?_
    have hut : u ≠ t := fun hut => hrun.2 (hut ▸ hu)
    unfold Pending RtMailbox.wait
    dsimp only
    rw [WaitLists.tcb_startTimer_ne _ _ hut, WaitLists.tcb_rtIpcListSuspend_ne hrun.1 _ _ hut,
      Function.update_of_ne hut]
  refine ⟨hok.startTimer ?_ c.timeout, fun side u hu => ?_,
    ⟨h.ring.entry_le, h.ring.out_lt, h.ring.in_eq⟩, h.fifo, fun side hne => ?_⟩
  · exact (hok.stat t).mpr ⟨c.side, (WaitLists.mem_rtIpcListSuspend hrun.1 _ _ _ _).mpr
      (.inl ⟨rfl, rfl⟩)⟩
  · obtain ⟨rfl, rfl⟩ | ⟨hut, hu⟩ := hmem side u hu
    · simp [RtMailbox.wait]
    · simp only [RtMailbox.wait, Function.update_of_ne hut]
      exact h.calls side u hu
  · rw [hpending]
    change available o.mailbox side ≤ _
    by_cases hs : side = c.side
    · rw [hs, hzero]
      exact Nat.zero_le _
    · obtain ⟨u, hu⟩ := List.exists_mem_of_ne_nil _ hne
      obtain ⟨-, hs'⟩ | ⟨-, hu⟩ := hmem side u hu
      · exact absurd hs' hs
      · have := h.room side (List.ne_nil_of_mem hu)
        rwa [slackOf, if_neg hs] at this

/-- A thread leaves its list and is ready. -/
theorem pending_readied (h : Inv slack o) {side' : Side}
    (ht : t ∈ o.mailbox.lists.list side') (e : Err) {mb : RtMailbox Thread}
    (hlists : mb.lists = o.mailbox.lists.readied t e) (hcall : mb.call = o.mailbox.call) :
    pending mb side = pending o.mailbox side + if e = .eok ∧ side = side' then 1 else 0 := by
  have hnot : t ∉ o.mailbox.lists.resumed := fun hmem =>
    h.lists.ready_notMem (h.lists.resumed.2 t hmem) side' ht
  have hold : (o.mailbox.lists.resumed.countP fun u => decide (Pending mb side u)) =
      pending o.mailbox side := by
    refine List.countP_congr fun u hu => ?_
    have hut : u ≠ t := ne_of_mem_of_not_mem hu hnot
    have htcb : mb.lists.tcb u = o.mailbox.lists.tcb u := by
      rw [hlists]
      exact if_neg hut
    rw [decide_eq_true_eq, decide_eq_true_eq, Pending, htcb, hcall]
    exact Iff.rfl
  have hself : Pending mb side t ↔ e = .eok ∧ side = side' := by
    have htcb : (mb.lists.tcb t).error = e := by
      rw [hlists]
      exact congrArg Tcb.error (if_pos rfl)
    rw [Pending, htcb, hcall, h.calls side' t ht]
    exact and_congr_right fun _ => ⟨fun hs => (Option.some.inj hs).symm, fun hs => hs ▸ rfl⟩
  have hres : mb.lists.resumed = o.mailbox.lists.resumed ++ [t] := by rw [hlists]; rfl
  rw [pending, hres, List.countP_append, hold, List.countP_singleton]
  simp only [decide_eq_true_eq, hself]

/-- A waiting thread is resumed for what has become available. -/
theorem wake (h : Inv slack o) {mb : RtMailbox Thread} (hlists : mb.lists = o.mailbox.lists)
    (hcall : mb.call = o.mailbox.call) (hring : RingOk mb) {sent received : List (BitVec 32)}
    {asked : Thread → BitVec 32}
    (hfifo : sent = received ++ contents mb) (hslack : slack = slackOf side.other)
    (hless : available o.mailbox side.other = available mb side.other + 1)
    (hmore : available mb side = available o.mailbox side + 1) :
    Inv noSlack
      { mailbox := mb.wake side, sent := sent, received := received, asked := asked } := by
  have hne : side ≠ side.other := by
    cases side with
    | receivers => exact Side.noConfusion
    | senders => exact Side.noConfusion
  -- what the other side waits for is less by what was just taken
  have hother : ∀ side', side' ≠ side → o.mailbox.lists.list side' ≠ [] →
      available mb side' ≤ pending o.mailbox side' := by
    intro side' hs hne'
    obtain rfl : side' = side.other := by
      cases side' with
      | receivers => cases side with
        | receivers => exact absurd rfl hs
        | senders => rfl
      | senders => cases side with
        | receivers => rfl
        | senders => exact absurd rfl hs
    have := h.room _ hne'
    rw [hslack, slackOf, if_pos rfl] at this
    omega
  cases hl : o.mailbox.lists.list side with
  | nil =>
    have heq : (mb.wake side).lists = o.mailbox.lists := by
      rw [RtMailbox.wake, WaitLists.rtIpcListResume, hlists, hl]
    have hpending : ∀ side', pending (mb.wake side) side' = pending o.mailbox side' := by
      intro side'
      refine pending_congr (congrArg WaitLists.resumed heq) fun u _ => ?_
      rw [Pending, heq]
      exact Iff.of_eq (congrArg (fun call => _ ∧ (call u).map Call.side = some side') hcall)
    refine ⟨heq ▸ h.lists, fun side' u hu => ?_, ⟨hring.entry_le, hring.out_lt, hring.in_eq⟩,
      hfifo, fun side' hne' => ?_⟩
    · rw [heq] at hu
      exact (congrArg (fun call => (call u).map Call.side) hcall).trans (h.calls side' u hu)
    · rw [heq] at hne'
      have hs : side' ≠ side := fun hs => hne' (hs ▸ hl)
      rw [hpending]
      exact (hother side' hs hne').trans (Nat.le_add_right _ _)
  | cons t rest =>
    have ht : t ∈ o.mailbox.lists.list side := hl ▸ List.mem_cons_self
    have heq : (mb.wake side).lists = o.mailbox.lists.readied t .eok := by
      rw [RtMailbox.wake, hlists]
      exact h.lists.rtIpcListResume_cons hl
    have hpending : ∀ side', pending (mb.wake side) side' =
        pending o.mailbox side' + if Err.eok = .eok ∧ side' = side then 1 else 0 := fun side' =>
      h.pending_readied ht .eok heq hcall
    have hsub : ∀ side' u, u ∈ (mb.wake side).lists.list side' →
        u ∈ o.mailbox.lists.list side' := fun side' u hu =>
      ((h.lists.mem_readied t .eok side' u).mp (heq ▸ hu)).2
    refine ⟨heq ▸ h.lists.readied ((h.lists.stat t).mpr ⟨side, ht⟩) .eok, fun side' u hu => ?_,
      ⟨hring.entry_le, hring.out_lt, hring.in_eq⟩, hfifo, fun side' hne' => ?_⟩
    · exact (congrArg (fun call => (call u).map Call.side) hcall).trans
        (h.calls side' u (hsub side' u hu))
    · obtain ⟨u, hu⟩ := List.exists_mem_of_ne_nil _ hne'
      have hold := List.ne_nil_of_mem (hsub side' u hu)
      rw [hpending]
      change available mb side' ≤ _
      by_cases hs : side' = side
      · subst hs
        have := h.room side' hold
        rw [hslack, slackOf, if_neg hne] at this
        rw [if_pos ⟨rfl, rfl⟩, hmore]
        exact Nat.add_le_add_right this 1
      · exact (hother side' hs hold).trans (Nat.le_add_right _ _)

/-! ## Calls -/

theorem sendTurn (h : Inv (slackOf .senders) o)
    (hrun : o.mailbox.entry = o.mailbox.size → o.mailbox.lists.Running t)
    (value : BitVec 32) (timeout : Int) :
    Inv noSlack (o.sending t value (o.mailbox.sendTurn t value timeout)) := by
  unfold RtMailbox.sendTurn
  split
  · rename_i hfull
    have he := h.setError (hrun hfull) .eok
    have hzero : available (o.mailbox.setError t .eok) .senders = 0 := by
      change o.mailbox.size.toNat - o.mailbox.entry.toNat = 0
      rw [hfull, Nat.sub_self]
    split
    · exact he.settle hzero
    · obtain ⟨hrun', herr⟩ := running_setError (hrun hfull)
      exact (he.wait (c := .send value timeout) hrun' herr hzero).asking _
  · rename_i hroom
    obtain ⟨hring, hcontents, hless, hmore⟩ := h.ring.store hroom value
    refine h.wake (by rfl) (by rfl) hring ?_ rfl hless hmore
    rw [hcontents, ← List.append_assoc, ← h.fifo]
    exact if_pos rfl

theorem recvTurn (h : Inv (slackOf .receivers) o)
    (hrun : o.mailbox.entry = 0 → o.mailbox.lists.Running t) (timeout : Int) :
    Inv noSlack (o.receiving (o.mailbox.recvTurn t timeout)) := by
  unfold RtMailbox.recvTurn
  split
  · rename_i hempty
    have he := h.setError (hrun hempty) .eok
    obtain ⟨hrun', herr⟩ := running_setError (hrun hempty)
    have hzero : available (o.mailbox.setError t .eok) .receivers = 0 :=
      congrArg BitVec.toNat hempty
    split
    · exact (he.setError hrun' .etimeout).settle hzero
    · exact he.wait (c := .recv timeout) hrun' herr hzero
  · rename_i hmail
    obtain ⟨hring, hcontents, hless, hmore⟩ := h.ring.take hmail
    refine h.wake (by rfl) (by rfl) hring ?_ rfl hless hmore
    rw [h.fifo, hcontents, List.append_assoc]
    rfl

/-- A resumed thread runs again: what its side waits for may be there for it. -/
theorem runAgain (h : Inv noSlack o) (ht : t ∈ o.mailbox.lists.resumed)
    {slack : Side → Nat} (hslack : ∀ side, Pending o.mailbox side t → slack side = 1) :
    Inv slack { o with mailbox := o.mailbox.runAgain t } := by
  refine ⟨h.lists.runAgain t, h.calls, ⟨h.ring.entry_le, h.ring.out_lt, h.ring.in_eq⟩, h.fifo,
    fun side hne => (h.room side hne).trans ?_⟩
  have hcount : pending o.mailbox side =
      (t :: o.mailbox.lists.resumed.erase t).countP fun u =>
        decide (Pending o.mailbox side u) := (List.perm_cons_erase ht).countP_eq _
  have hnone : noSlack side = 0 := rfl
  rw [hcount, List.countP_cons, hnone, Nat.add_zero]
  refine Nat.add_le_add_left ?_ _
  split
  · rename_i hp
    exact (hslack side (of_decide_eq_true hp)).ge
  · exact Nat.zero_le _

theorem running_runAgain (h : Inv noSlack o) (ht : t ∈ o.mailbox.lists.resumed) :
    (o.mailbox.runAgain t).lists.Running t :=
  ⟨h.lists.resumed.2 t ht, fun hmem => (h.lists.resumed.1.mem_erase_iff.mp hmem).1 rfl⟩

theorem sendAgain (h : Inv noSlack o) (ht : t ∈ o.mailbox.lists.resumed) {value : BitVec 32}
    {timeout : Int} (hcall : o.mailbox.call t = some (.send value timeout))
    (elapsed : BitVec 32) :
    Inv noSlack (o.sending t value (o.mailbox.sendAgain t value timeout elapsed)) := by
  unfold RtMailbox.sendAgain
  split
  · rename_i herr
    exact h.runAgain ht fun side hp => absurd hp.1 herr
  · have hp : ∀ side, Pending o.mailbox side t → slackOf .senders side = 1 := fun side hp => by
      have := hp.2
      rw [hcall] at this
      exact if_pos (Option.some.inj this).symm
    exact (h.runAgain ht hp).sendTurn (fun _ => h.running_runAgain ht) value _

theorem recvAgain (h : Inv noSlack o) (ht : t ∈ o.mailbox.lists.resumed) {timeout : Int}
    (hcall : o.mailbox.call t = some (.recv timeout)) (elapsed : BitVec 32) :
    Inv noSlack (o.receiving (o.mailbox.recvAgain t timeout elapsed)) := by
  unfold RtMailbox.recvAgain
  split
  · rename_i herr
    exact h.runAgain ht fun side hp => absurd hp.1 herr
  · have hp : ∀ side, Pending o.mailbox side t → slackOf .receivers side = 1 := fun side hp => by
      have := hp.2
      rw [hcall] at this
      exact if_pos (Option.some.inj this).symm
    exact (h.runAgain ht hp).recvTurn (fun _ => h.running_runAgain ht) _

theorem send (h : Inv noSlack o) {timeout : Int}
    (hrun : timeout = 0 ∨ o.mailbox.lists.Running t) (value : BitVec 32) :
    Inv noSlack (o.sending t value (o.mailbox.rtMbSendWait t value timeout)) := by
  unfold RtMailbox.rtMbSendWait
  split
  · exact h
  · rename_i hblocks
    exact (h.mono _).sendTurn (fun hfull => hrun.resolve_left fun hz => hblocks ⟨hfull, hz⟩)
      value timeout

theorem recv (h : Inv noSlack o) {timeout : Int}
    (hrun : timeout = 0 ∨ o.mailbox.lists.Running t) :
    Inv noSlack (o.receiving (o.mailbox.rtMbRecv t timeout)) := by
  unfold RtMailbox.rtMbRecv
  split
  · exact h
  · rename_i hblocks
    exact (h.mono _).recvTurn
      (fun hempty => hrun.resolve_left fun hz => hblocks ⟨hempty, hz⟩) timeout

/-- A thread that a timer has made ready has not been resumed for anything. -/
theorem timeout (h : Inv noSlack o) (ht : (o.mailbox.lists.tcb t).timer = true) :
    Inv noSlack { o with mailbox :=
      { o.mailbox with lists := o.mailbox.lists.rtThreadTimeout t } } := by
  obtain ⟨side', hmem⟩ := (h.lists.stat t).mp (h.lists.timer t ht)
  refine ⟨h.lists.rtThreadTimeout ht, fun side u hu => ?_,
    ⟨h.ring.entry_le, h.ring.out_lt, h.ring.in_eq⟩, h.fifo, fun side hne => ?_⟩
  · exact h.calls side u (List.mem_of_mem_erase hu)
  · obtain ⟨u, hu⟩ := List.exists_mem_of_ne_nil _ hne
    refine (h.room side (List.ne_nil_of_mem (List.mem_of_mem_erase hu))).trans ?_
    have hp : pending { o.mailbox with lists := o.mailbox.lists.rtThreadTimeout t } side = _ :=
      h.pending_readied hmem .etimeout rfl rfl
    exact Nat.add_le_add_right ((Nat.le_add_right _ _).trans_eq hp.symm) _

theorem step {o' : Observed Thread} {e : Event Thread} (h : Inv noSlack o) (hasked : Asked o)
    (hstep : step o e = some o') : Inv noSlack o' := by
  cases e with
  | send t value timeout =>
    obtain ⟨hrun, heq⟩ := Option.ite_none_right_eq_some.mp hstep
    obtain rfl := Option.some.inj heq
    exact h.send hrun value
  | recv t timeout =>
    obtain ⟨hrun, heq⟩ := Option.ite_none_right_eq_some.mp hstep
    obtain rfl := Option.some.inj heq
    exact h.recv hrun
  | timeout t =>
    obtain ⟨ht, heq⟩ := Option.ite_none_right_eq_some.mp hstep
    obtain rfl := Option.some.inj heq
    exact h.timeout ht
  | run t elapsed =>
    obtain ⟨ht, heq⟩ := Option.ite_none_right_eq_some.mp hstep
    cases hcall : o.mailbox.call t with
    | none =>
      rw [hcall] at heq
      cases heq
    | some c =>
      rw [hcall] at heq
      cases c with
      | send value timeout =>
        obtain rfl := Option.some.inj heq
        rw [hasked t value timeout hcall]
        exact h.sendAgain ht hcall elapsed
      | recv timeout =>
        obtain rfl := Option.some.inj heq
        exact h.recvAgain ht hcall elapsed

omit [DecidableEq Thread] in
theorem toServed (h : Inv noSlack o) : Served o := by
  have hquiet : ∀ side, o.mailbox.lists.resumed = [] → 0 < available o.mailbox side →
      o.mailbox.lists.list side = [] := by
    intro side hres hpos
    by_contra hne
    have := h.room side hne
    rw [pending, hres] at this
    exact absurd (hpos.trans_le this) (Nat.lt_irrefl 0)
  refine ⟨h.fifo, BitVec.le_def.mpr h.ring.entry_le, fun hres hpos => ?_, fun hres hlt => ?_⟩
  · exact hquiet .receivers hres (BitVec.lt_def.mp hpos)
  · exact hquiet .senders hres (Nat.sub_pos_of_lt (BitVec.lt_def.mp hlt))

end Inv

omit [DecidableEq Thread] in
theorem inv_start (flag : IpcFlag) (msgPool : Nat → BitVec 32) (size : BitVec 16)
    (priority : Thread → Nat) : Inv noSlack (start flag msgPool size priority) where
  lists := WaitLists.ok_idle priority
  calls _ _ h := by cases h
  ring := ⟨Nat.zero_le _, fun h => h, (Nat.zero_mod _).symm⟩
  fifo := rfl
  room _ hne := absurd rfl hne

omit [DecidableEq Thread] in
theorem asked_start (flag : IpcFlag) (msgPool : Nat → BitVec 32) (size : BitVec 16)
    (priority : Thread → Nat) : Asked (start flag msgPool size priority) := fun _ _ _ h => by
  cases h

/-- Whoever sends and receives in whatever order, and whatever timers fire. -/
theorem served_throughout (flag : IpcFlag) (msgPool : Nat → BitVec 32) (size : BitVec 16)
    (priority : Thread → Nat) (es : List (Event Thread)) :
    Throughout step Served (start flag msgPool size priority) es :=
  throughout_of_keep (J := fun o => Inv noSlack o ∧ Asked o) (fun _ h => h.1.toServed)
    (fun _ _ _ h hstep => ⟨h.1.step h.2 hstep, h.2.step hstep⟩)
    ⟨inv_start flag msgPool size priority, asked_start flag msgPool size priority⟩ es

end ControlRTT.Kernel.Mailbox

import Mathlib.Data.List.Forall2
import ControlRTT.Lib.LinkedList
import ControlRTT.Lib.Runs
import ControlRTT.Kernel.RtDef
import ControlRTT.Kernel.WaitLists

/-! # Message queues (ipc.c)

A message is copied to and from a node of the pool outside the critical sections that
take the node off one list and put it on another, so between these a call holds its node.
What a message queue is for is a queue of messages with urgent ones at its front (`Spec`); no
node is ever lost, and a receiver gets the messages of that queue, each as far as its buffer
reaches (`Conserved`). A node does not know how long its message is, so behind a shorter one
a receiver gets what the node held before. -/
namespace ControlRTT.Kernel.MessageQueue
open ControlRTT.Lib.LinkedList ControlRTT.Lib.Runs ControlRTT.Kernel.RtDef
  ControlRTT.Kernel.Thread

/-- How far a call has come that holds a node: the message is to be copied into the node
or has been, or it is to be copied out of it or has been. -/
inductive Stage where
  | filling (urgent : Bool) (buffer : List (BitVec 8))
  | filled (urgent : Bool) (buffer : List (BitVec 8))
  | reading (size : Nat)
  | done (size : Nat) (buffer : List (BitVec 8))
  deriving DecidableEq, Repr

structure Call (Thread : Type) where
  caller : Thread
  node : Nat
  stage : Stage
  deriving DecidableEq, Repr

/-- What the call has copied out of its node. -/
def Call.buffer {Thread : Type} (call : Call Thread) : List (BitVec 8) :=
  match call.stage with
  | .filling _ _ | .filled _ _ | .reading _ => []
  | .done _ buffer => buffer

/-- The nodes of the pool are numbered; `next` and `data` are what they hold. -/
structure RtMessageQueue (Thread : Type) where
  flag : IpcFlag
  msgSize : BitVec 16
  maxMsgs : BitVec 16
  entry : BitVec 16 := 0
  msgQueueHead : Option Nat := none
  msgQueueTail : Option Nat := none
  msgQueueFree : Option Nat := none
  next : Nat → Option Nat
  data : Nat → Nat → BitVec 8
  lists : WaitLists Unit Thread
  waiting : Thread → Option (Nat × Int) := fun _ => none
  calls : List (Call Thread) := []

/-- What a turn of the loop in `rt_mq_recv` comes to. -/
inductive Turn where
  | waits
  | ended (e : Err)
  | takes
  deriving DecidableEq, Repr

/-- What `rt_mq_send` and `rt_mq_urgent` return if they get no node. -/
inductive SendError where
  | error
  | efull
  deriving DecidableEq, Repr

variable {Thread : Type} [DecidableEq Thread]

namespace RtMessageQueue

/-! ## Sending -/

/-- The first critical section: a node is taken off the free list. -/
def takeFree (mq : RtMessageQueue Thread) (caller : Thread) (urgent : Bool)
    (buffer : List (BitVec 8)) : RtMessageQueue Thread × Option SendError :=
  if buffer.length > mq.msgSize.toNat then (mq, some .error)
  else
    match mq.msgQueueFree with
    | none => (mq, some .efull)
    | some msg =>
      ({ mq with
          msgQueueFree := mq.next msg
          calls := mq.calls ++ [⟨caller, msg, .filling urgent buffer⟩] }, none)

def rtMqSend (mq : RtMessageQueue Thread) (caller : Thread) (buffer : List (BitVec 8)) :
    RtMessageQueue Thread × Option SendError := mq.takeFree caller false buffer

def rtMqUrgent (mq : RtMessageQueue Thread) (caller : Thread) (buffer : List (BitVec 8)) :
    RtMessageQueue Thread × Option SendError := mq.takeFree caller true buffer

def setStage (mq : RtMessageQueue Thread) (call : Call Thread) (stage : Stage) :
    RtMessageQueue Thread :=
  { mq with calls := mq.calls.map fun c => if c = call then { c with stage := stage } else c }

def dropCall (mq : RtMessageQueue Thread) (call : Call Thread) : RtMessageQueue Thread :=
  { mq with calls := mq.calls.erase call }

/-- `rt_memcpy` into the node. -/
def copyIn (mq : RtMessageQueue Thread) (msg : Nat) (buffer : List (BitVec 8)) :
    RtMessageQueue Thread :=
  { mq with data := Function.update mq.data msg fun i => buffer.getD i (mq.data msg i) }

def setNext (mq : RtMessageQueue Thread) (msg : Nat) (p : Option Nat) :
    RtMessageQueue Thread :=
  { mq with next := Function.update mq.next msg p }

/-- The part outside the critical sections; only `rt_mq_send` ends the list here. -/
def fill (mq : RtMessageQueue Thread) (call : Call Thread) (urgent : Bool)
    (buffer : List (BitVec 8)) : RtMessageQueue Thread :=
  ((if urgent then mq else mq.setNext call.node none).copyIn call.node buffer).setStage call
    (.filled urgent buffer)

def linkLast (mq : RtMessageQueue Thread) (msg : Nat) : RtMessageQueue Thread :=
  { mq with
    next :=
      match mq.msgQueueTail with
      | some tail => Function.update mq.next tail (some msg)
      | none => mq.next
    msgQueueTail := some msg
    msgQueueHead := if mq.msgQueueHead = none then some msg else mq.msgQueueHead
    entry := mq.entry + 1 }

def linkFirst (mq : RtMessageQueue Thread) (msg : Nat) : RtMessageQueue Thread :=
  { mq with
    next := Function.update mq.next msg mq.msgQueueHead
    msgQueueHead := some msg
    msgQueueTail := if mq.msgQueueTail = none then some msg else mq.msgQueueTail
    entry := mq.entry + 1 }

def wake (mq : RtMessageQueue Thread) : RtMessageQueue Thread :=
  { mq with lists := mq.lists.rtIpcListResume () }

/-- The second critical section: the node is linked and a receiver resumed. -/
def link (mq : RtMessageQueue Thread) (call : Call Thread) (urgent : Bool) :
    RtMessageQueue Thread :=
  ((if urgent then mq.linkFirst call.node else mq.linkLast call.node).dropCall call).wake

/-! ## Receiving -/

def setError (mq : RtMessageQueue Thread) (t : Thread) (e : Err) : RtMessageQueue Thread :=
  { mq with lists := mq.lists.setError t e }

/-- The call waits, up to `rt_schedule`. -/
def wait (mq : RtMessageQueue Thread) (t : Thread) (size : Nat) (timeout : Int) :
    RtMessageQueue Thread :=
  { mq with
    waiting := Function.update mq.waiting t (some (size, timeout))
    lists := (mq.lists.rtIpcListSuspend () mq.flag t).startTimer t timeout }

/-- The first node of the queue is unlinked. The loop has found an entry. -/
def dequeue (mq : RtMessageQueue Thread) (t : Thread) (size : Nat) : RtMessageQueue Thread :=
  match mq.msgQueueHead with
  | none => mq
  | some msg =>
    { mq with
      msgQueueHead := mq.next msg
      msgQueueTail := if mq.msgQueueTail = some msg then none else mq.msgQueueTail
      entry := mq.entry - 1
      calls := mq.calls ++ [⟨t, msg, .reading size⟩] }

def recvTurn (mq : RtMessageQueue Thread) (t : Thread) (size : Nat) (timeout : Int) :
    RtMessageQueue Thread × Turn :=
  if mq.entry = 0 then
    if timeout = 0 then ((mq.setError t .eok).setError t .etimeout, .ended .etimeout)
    else ((mq.setError t .eok).wait t size timeout, .waits)
  else (mq.dequeue t size, .takes)

/-- The call up to the end of its first critical section, or to `rt_schedule`. -/
def rtMqRecv (mq : RtMessageQueue Thread) (t : Thread) (size : Nat) (timeout : Int) :
    RtMessageQueue Thread × Turn :=
  if mq.entry = 0 ∧ timeout = 0 then (mq, .ended .etimeout) else mq.recvTurn t size timeout

/-- The call comes back from `rt_schedule`. -/
def recvAgain (mq : RtMessageQueue Thread) (t : Thread) (size : Nat) (timeout : Int)
    (elapsed : BitVec 32) : RtMessageQueue Thread × Turn :=
  if (mq.lists.tcb t).error ≠ .eok then
    ({ mq with lists := mq.lists.runAgain t }, .ended (mq.lists.tcb t).error)
  else { mq with lists := mq.lists.runAgain t }.recvTurn t size (timeLeft timeout elapsed)

/-- The bytes of a node. -/
def content (mq : RtMessageQueue Thread) (msg : Nat) : List (BitVec 8) :=
  (List.range mq.msgSize.toNat).map (mq.data msg)

/-- `rt_memcpy` out of a node. -/
def copyOut (mq : RtMessageQueue Thread) (msg size : Nat) : List (BitVec 8) :=
  (List.range (if size > mq.msgSize.toNat then mq.msgSize.toNat else size)).map (mq.data msg)

/-- A node goes to the free list. -/
def putFree (mq : RtMessageQueue Thread) (msg : Nat) : RtMessageQueue Thread :=
  { mq with
    next := Function.update mq.next msg mq.msgQueueFree
    msgQueueFree := some msg }

/-- The next part of a call that holds a node. -/
def proceed (mq : RtMessageQueue Thread) (call : Call Thread) : RtMessageQueue Thread :=
  match call.stage with
  | .filling urgent buffer => mq.fill call urgent buffer
  | .filled urgent _ => mq.link call urgent
  | .reading size => mq.setStage call (.done size (mq.copyOut call.node size))
  | .done _ _ => (mq.putFree call.node).dropCall call

/-! ## `rt_mq_control` with `RT_IPC_CMD_RESET` -/

/-- The turns of the loop that releases the messages. -/
def releaseLoop : Nat → RtMessageQueue Thread → RtMessageQueue Thread
  | 0, mq => mq
  | fuel + 1, mq =>
    match mq.msgQueueHead with
    | none => mq
    | some msg =>
      releaseLoop fuel
        ({ mq with
          msgQueueHead := mq.next msg
          msgQueueTail := if mq.msgQueueTail = some msg then none else mq.msgQueueTail }.putFree
          msg)

def reset (mq : RtMessageQueue Thread) : RtMessageQueue Thread :=
  { releaseLoop mq.maxMsgs.toNat { mq with lists := mq.lists.rtIpcListResumeAll () } with
    entry := 0 }

/-! ## `rt_mq_init` -/

/-- The first `n` turns of the loop that links the free nodes. -/
def initLoop (mq : RtMessageQueue Thread) : Nat → RtMessageQueue Thread
  | 0 => mq
  | n + 1 => (mq.initLoop n).putFree n

/-- The size of a node without its message. -/
def messageHeader : Nat := 4

def alignedSize (msgSize : Nat) : BitVec 16 := BitVec.ofNat 16 (rtAlign msgSize rtAlignSize)

def capacity (msgSize poolSize : Nat) : BitVec 16 :=
  BitVec.ofNat 16 (poolSize / ((alignedSize msgSize).toNat + messageHeader))

def rtMqInit (flag : IpcFlag) (msgSize poolSize : Nat) (next : Nat → Option Nat)
    (data : Nat → Nat → BitVec 8) (priority : Thread → Nat) : RtMessageQueue Thread :=
  initLoop
    { flag := flag
      msgSize := alignedSize msgSize
      maxMsgs := capacity msgSize poolSize
      next := next
      data := data
      lists := WaitLists.idle priority }
    (capacity msgSize poolSize).toNat

end RtMessageQueue

/-! ## What a message queue is for -/

/-- A message that has been linked, the `id`-th of all, and what its node held before it. -/
structure Message where
  id : Nat
  urgent : Bool
  bytes : List (BitVec 8)
  held : List (BitVec 8)
  deriving DecidableEq, Repr

/-- A node with the message in it. -/
def Message.content (m : Message) : List (BitVec 8) := m.bytes ++ m.held.drop m.bytes.length

/-- How far a call has come: its message is to be written into a node or has been, with what
that held before, or the message it has taken is to be read or has been. -/
inductive Phase where
  | sending (urgent : Bool) (bytes : List (BitVec 8))
  | written (urgent : Bool) (bytes held : List (BitVec 8))
  | receiving (size : Nat) (message : Option Message)
  | read (size : Nat) (message : Option Message)

def Phase.message : Phase → Option Message
  | sending _ _ | written _ _ _ => none
  | receiving _ message | read _ message => message

/-- A receive that has returned: its message, its buffer's size and what it got. -/
structure Receipt where
  message : Option Message
  size : Nat
  buffer : List (BitVec 8)

/-- The queue of messages, and the calls by their arguments and answers alone; `asked` are the
sizes that blocked receives have come with. -/
structure Spec (Thread : Type) where
  calls : List (Thread × Phase) := []
  asked : Thread → Nat := fun _ => 0
  linked : List Message := []
  queue : List Message := []
  taken : List Message := []
  received : List Receipt := []
  discarded : List Message := []

namespace Spec

/-- A call to send that has got a node. -/
def send (s : Spec Thread) (t : Thread) (urgent : Bool) (bytes : List (BitVec 8)) :
    Option SendError → Spec Thread
  | some _ => s
  | none => { s with calls := s.calls ++ [(t, .sending urgent bytes)] }

/-- A receive takes the first message. -/
def take (s : Spec Thread) (t : Thread) (size : Nat) : Spec Thread :=
  { s with
    queue := s.queue.tail
    taken := s.taken ++ s.queue.head?.toList
    calls := s.calls ++ [(t, .receiving size s.queue.head?)] }

def recv (s : Spec Thread) (t : Thread) (size : Nat) : Turn → Spec Thread
  | .waits => { s with asked := Function.update s.asked t size }
  | .ended _ => s
  | .takes => s.take t size

/-- An ordinary message goes to the end of the queue and an urgent one to its front. -/
def link (s : Spec Thread) (urgent : Bool) (bytes held : List (BitVec 8)) : Spec Thread :=
  { s with
    linked := s.linked ++ [⟨s.linked.length, urgent, bytes, held⟩]
    queue :=
      if urgent then ⟨s.linked.length, urgent, bytes, held⟩ :: s.queue
      else s.queue ++ [⟨s.linked.length, urgent, bytes, held⟩] }

def setPhase (t : Thread) (phase : Phase) : List (Thread × Phase) → List (Thread × Phase)
  | [] => []
  | c :: calls => if c.1 = t then (t, phase) :: calls else c :: setPhase t phase calls

def dropCall (s : Spec Thread) (t : Thread) : Spec Thread :=
  { s with calls := s.calls.eraseP fun c => c.1 = t }

/-- The next part of a call, with what its node holds and what it has copied out. -/
def proceed (s : Spec Thread) (t : Thread) (held buffer : List (BitVec 8)) : Spec Thread :=
  match (s.calls.find? fun c => c.1 = t).map Prod.snd with
  | none => s
  | some (.sending urgent bytes) =>
    { s with calls := setPhase t (.written urgent bytes held) s.calls }
  | some (.written urgent bytes held) => (s.dropCall t).link urgent bytes held
  | some (.receiving size message) => { s with calls := setPhase t (.read size message) s.calls }
  | some (.read size message) =>
    { s.dropCall t with received := s.received ++ [⟨message, size, buffer⟩] }

/-- A reset discards the queue. -/
def discard (s : Spec Thread) : Spec Thread :=
  { s with
    queue := []
    discarded := s.discarded ++ s.queue }

/-- The messages of the receives that have not returned. -/
def inFlight (s : Spec Thread) : List Message := s.calls.filterMap fun c => c.2.message

end Spec

/-! ## Runs -/

inductive Event (Thread : Type) where
  | send (t : Thread) (buffer : List (BitVec 8))
  | urgent (t : Thread) (buffer : List (BitVec 8))
  | recv (t : Thread) (size : Nat) (timeout : Int)
  | proceed (t : Thread)
  | timeout (t : Thread)
  | run (t : Thread) (elapsed : BitVec 32)
  | reset

structure Observed (Thread : Type) where
  mq : RtMessageQueue Thread
  spec : Spec Thread := {}

namespace Observed

def send (o : Observed Thread) (t : Thread) (urgent : Bool) (buffer : List (BitVec 8))
    (result : RtMessageQueue Thread × Option SendError) : Observed Thread where
  mq := result.1
  spec := o.spec.send t urgent buffer result.2

def recv (o : Observed Thread) (t : Thread) (size : Nat)
    (result : RtMessageQueue Thread × Turn) : Observed Thread where
  mq := result.1
  spec := o.spec.recv t size result.2

def proceed (o : Observed Thread) (t : Thread) (call : Call Thread) : Observed Thread where
  mq := o.mq.proceed call
  spec := o.spec.proceed t (o.mq.content call.node) call.buffer

end Observed

/-- The thread can call: it runs, and no call of it holds a node. -/
def Idle (mq : RtMessageQueue Thread) (t : Thread) : Prop :=
  mq.lists.Running t ∧ ∀ call ∈ mq.calls, call.caller ≠ t

instance (mq : RtMessageQueue Thread) (t : Thread) : Decidable (Idle mq t) :=
  inferInstanceAs (Decidable (_ ∧ _))

/-- Only an idle thread (or interrupt handler) calls, the parts of a call follow one
another, only a started timer fires, and only a resumed thread comes back from
`rt_schedule`. -/
def step (o : Observed Thread) : Event Thread → Option (Observed Thread)
  | .send t buffer =>
    if Idle o.mq t then some (o.send t false buffer (o.mq.rtMqSend t buffer)) else none
  | .urgent t buffer =>
    if Idle o.mq t then some (o.send t true buffer (o.mq.rtMqUrgent t buffer)) else none
  | .recv t size timeout =>
    if Idle o.mq t then some (o.recv t size (o.mq.rtMqRecv t size timeout)) else none
  | .proceed t => (o.mq.calls.find? fun call => call.caller = t).map (o.proceed t)
  | .timeout t =>
    if (o.mq.lists.tcb t).timer then
      some { o with mq := { o.mq with lists := o.mq.lists.rtThreadTimeout t } }
    else none
  | .run t elapsed =>
    if t ∈ o.mq.lists.resumed then
      (o.mq.waiting t).map fun (size, timeout) =>
        o.recv t (o.spec.asked t) (o.mq.recvAgain t size timeout elapsed)
    else none
  | .reset => some ⟨o.mq.reset, o.spec.discard⟩

def start (flag : IpcFlag) (msgSize poolSize : Nat) (next : Nat → Option Nat)
    (data : Nat → Nat → BitVec 8) (priority : Thread → Nat) : Observed Thread where
  mq := RtMessageQueue.rtMqInit flag msgSize poolSize next data priority

/-- Every message that has been linked has one fate, and ordinary ones are taken in the order
in which they were linked. -/
structure History (s : Spec Thread) : Prop where
  once : (s.received.filterMap Receipt.message ++ s.inFlight ++ s.queue ++ s.discarded).Perm
    s.linked
  ids : s.linked.map Message.id = List.range s.linked.length
  taken : (s.received.filterMap Receipt.message ++ s.inFlight).Perm s.taken
  order : ((s.taken ++ s.queue).filter fun m => !m.urgent).Pairwise fun m m' => m.id < m'.id

/-- A receiver has got its message as far as its buffer reaches. -/
def Receipt.Of (limit : Nat) (r : Receipt) : Prop :=
  ∃ m, r.message = some m ∧ r.buffer.length = min r.size limit ∧
    r.buffer = m.content.take r.size

/-- The node holds the message. -/
def Holds (mq : RtMessageQueue Thread) (m : Message) (n : Nat) : Prop := mq.content n = m.content

/-- How far a call should have come and how far it has, with what its node points to and
holds. -/
inductive Follows (limit : Nat) (next : Option Nat) (content : List (BitVec 8)) :
    Phase → Stage → Prop
  | sending {urgent : Bool} {bytes : List (BitVec 8)} (hlen : bytes.length ≤ limit) :
    Follows limit next content (.sending urgent bytes) (.filling urgent bytes)
  | written {urgent : Bool} {bytes held buffer : List (BitVec 8)}
    (hnext : urgent = false → next = none)
    (hholds : content = bytes ++ held.drop bytes.length) :
    Follows limit next content (.written urgent bytes held) (.filled urgent buffer)
  | receiving {size : Nat} {m : Message} (hholds : content = m.content) :
    Follows limit next content (.receiving size (some m)) (.reading size)
  | read {size size' : Nat} {message : Option Message} {buffer : List (BitVec 8)}
    (hreceipt : Receipt.Of limit ⟨message, size, buffer⟩) :
    Follows limit next content (.read size message) (.done size' buffer)

/-- A call is where the specification has it. -/
def Matches (mq : RtMessageQueue Thread) (c : Thread × Phase) (call : Call Thread) : Prop :=
  c.1 = call.caller ∧
    Follows mq.msgSize.toNat (mq.next call.node) (mq.content call.node) c.2 call.stage

/-- Every node is on one of the lists or held by a call, the queued nodes hold the messages of
the queue, and the calls are where the specification has them. -/
structure Conserved (o : Observed Thread) : Prop where
  nodes : ∃ free queued, Chain o.mq.next o.mq.msgQueueFree free ∧
    Chain o.mq.next o.mq.msgQueueHead queued ∧ o.mq.msgQueueTail = queued.getLast? ∧
    o.mq.entry.toNat = queued.length ∧ List.Forall₂ (Holds o.mq) o.spec.queue queued ∧
    (free ++ queued ++ o.mq.calls.map Call.node).Perm (List.range o.mq.maxMsgs.toNat)
  calls : List.Forall₂ (Matches o.mq) o.spec.calls o.mq.calls
  receipts : ∀ r ∈ o.spec.received, r.Of o.mq.msgSize.toNat
  history : History o.spec

end ControlRTT.Kernel.MessageQueue

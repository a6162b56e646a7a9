import ControlRTT.Kernel.MessageQueueNodes

/-! # Runs of a message queue

What becomes of the messages, and the steps of a run. -/
namespace ControlRTT.Kernel.MessageQueue
open ControlRTT.Lib.LinkedList ControlRTT.Lib.Runs ControlRTT.Kernel.Thread

variable {Thread : Type} [DecidableEq Thread]

/-! ## Messages -/

section Messages
variable {s : Spec Thread} {t : Thread} {phase : Phase}

/-- A call that goes on keeps its message. -/
theorem filterMap_setPhase {cs : List (Thread × Phase)} {phase' : Phase}
    (hfind : (cs.find? fun c => c.1 = t) = some (t, phase))
    (hsame : phase'.message = phase.message) :
    (Spec.setPhase t phase' cs).filterMap (fun c => c.2.message) =
      cs.filterMap fun c => c.2.message := by
  induction cs with
  | nil => cases hfind
  | cons c cs ih =>
    rw [List.find?_cons] at hfind
    by_cases ht : c.1 = t
    · rw [decide_eq_true ht] at hfind
      obtain rfl := Option.some.inj hfind
      rw [Spec.setPhase, if_pos rfl, List.filterMap_cons, List.filterMap_cons, hsame]
    · rw [decide_eq_false ht] at hfind
      rw [Spec.setPhase, if_neg ht, List.filterMap_cons, List.filterMap_cons, ih hfind]

/-- The messages of the calls, one less. -/
theorem filterMap_eraseP {cs : List (Thread × Phase)}
    (hfind : (cs.find? fun c => c.1 = t) = some (t, phase)) :
    (phase.message.toList ++ (cs.eraseP fun c => c.1 = t).filterMap fun c => c.2.message).Perm
      (cs.filterMap fun c => c.2.message) := by
  induction cs with
  | nil => cases hfind
  | cons c cs ih =>
    rw [List.find?_cons] at hfind
    by_cases ht : c.1 = t
    · rw [decide_eq_true ht] at hfind
      obtain rfl := Option.some.inj hfind
      rw [List.eraseP_cons_of_pos (by simp), List.filterMap_cons]
      cases phase.message with
      | none => exact .refl _
      | some m => exact .refl _
    · rw [decide_eq_false ht] at hfind
      rw [List.eraseP_cons_of_neg (by simpa using ht), List.filterMap_cons, List.filterMap_cons]
      cases c.2.message with
      | none => exact ih hfind
      | some m => exact List.perm_middle.trans ((ih hfind).cons m)

namespace History

omit [DecidableEq Thread] in
/-- Nothing changes for the messages. -/
theorem congr (h : History s) {calls : List (Thread × Phase)} {asked : Thread → Nat}
    (hsame : (calls.filterMap fun c => c.2.message) = s.inFlight) :
    History { s with calls := calls, asked := asked } := by
  refine ⟨?_, h.ids, ?_, h.order⟩
  · change (_ ++ (calls.filterMap fun c => c.2.message) ++ _ ++ _).Perm _
    rw [hsame]
    exact h.once
  · change (_ ++ calls.filterMap fun c => c.2.message).Perm _
    rw [hsame]
    exact h.taken

omit [DecidableEq Thread] in
theorem send (h : History s) (t : Thread) (urgent : Bool) (bytes : List (BitVec 8))
    (e : Option SendError) : History (s.send t urgent bytes e) := by
  cases e with
  | some e => exact h
  | none =>
    refine h.congr ?_
    rw [List.filterMap_append]
    exact List.append_nil _

omit [DecidableEq Thread] in
/-- What has been taken or is in the queue has been linked. -/
theorem id_lt (h : History s) {m : Message} (hm : m ∈ s.taken ++ s.queue) :
    m.id < s.linked.length := by
  have hlinked : m ∈ s.linked := by
    refine h.once.mem_iff.mp (List.mem_append_left _ ?_)
    obtain hm | hm := List.mem_append.mp hm
    · exact List.mem_append_left _ (h.taken.mem_iff.mpr hm)
    · exact List.mem_append_right _ hm
  have := List.mem_map_of_mem (f := Message.id) hlinked
  rw [h.ids] at this
  exact List.mem_range.mp this

omit [DecidableEq Thread] in
theorem link (h : History s) (urgent : Bool) (bytes held : List (BitVec 8)) :
    History (s.link urgent bytes held) := by
  refine ⟨?_, ?_, h.taken, ?_⟩
  · refine List.Perm.trans ?_ (h.once.append_right [_])
    cases urgent with
    | false =>
      change (_ ++ (s.queue ++ [_]) ++ _).Perm _
      rw [← List.append_assoc, List.append_assoc _ [_]]
      rw [List.append_assoc _ s.discarded]
      exact List.perm_append_comm.append_left _
    | true =>
      change (_ ++ (_ :: s.queue) ++ _).Perm _
      exact (List.perm_middle.append_right _).trans (List.perm_append_singleton _ _).symm
  · change (s.linked ++ [_]).map Message.id = List.range (s.linked ++ [_]).length
    rw [List.map_append, h.ids, List.length_append, List.length_singleton, List.range_succ]
    rfl
  · cases urgent with
    | false =>
      change ((s.taken ++ (s.queue ++ [_])).filter _).Pairwise _
      rw [← List.append_assoc, List.filter_append]
      refine List.pairwise_append.mpr ⟨h.order, List.pairwise_singleton _ _, ?_⟩
      intro m hm m' hm'
      obtain rfl := List.mem_singleton.mp hm'
      exact h.id_lt (List.mem_of_mem_filter hm)
    | true =>
      change ((s.taken ++ (_ :: s.queue)).filter _).Pairwise _
      rw [List.filter_append, List.filter_cons_of_neg (by simp), ← List.filter_append]
      exact h.order

omit [DecidableEq Thread] in
/-- A message is taken by a receive. -/
theorem take (h : History s) (t : Thread) (size : Nat) : History (s.take t size) := by
  have hflight : (s.take t size).inFlight = s.inFlight ++ s.queue.head?.toList := by
    unfold Spec.inFlight Spec.take
    rw [List.filterMap_append]
    cases s.queue.head? with
    | none => rfl
    | some m => rfl
  have hqueue : s.queue.head?.toList ++ s.queue.tail = s.queue := by
    cases s.queue with
    | nil => rfl
    | cons m ms => rfl
  refine ⟨?_, h.ids, ?_, ?_⟩
  · rw [hflight]
    refine List.Perm.trans (List.Perm.of_eq ?_) h.once
    rw [← List.append_assoc, List.append_assoc _ s.queue.head?.toList]
    exact congrArg (fun l => _ ++ l ++ s.discarded) hqueue
  · rw [hflight, ← List.append_assoc]
    exact h.taken.append_right _
  · change ((s.taken ++ _ ++ s.queue.tail).filter _).Pairwise _
    rw [List.append_assoc, hqueue]
    exact h.order

/-- A receive returns. -/
theorem receive (h : History s) {message : Option Message} {size : Nat}
    (hfind : (s.calls.find? fun c => c.1 = t) = some (t, .read size message))
    (buffer : List (BitVec 8)) :
    History { s.dropCall t with received := s.received ++ [⟨message, size, buffer⟩] } := by
  have hmoved : ((s.received ++ [(⟨message, size, buffer⟩ : Receipt)]).filterMap
      Receipt.message ++ (s.dropCall t).inFlight).Perm
      (s.received.filterMap Receipt.message ++ s.inFlight) := by
    rw [List.filterMap_append, List.append_assoc]
    refine List.Perm.append_left _ (List.Perm.trans (List.Perm.of_eq ?_) (filterMap_eraseP hfind))
    cases message with
    | none => rfl
    | some m => rfl
  exact ⟨((hmoved.append_right _).append_right _).trans h.once, h.ids, hmoved.trans h.taken,
    h.order⟩

/-- A sending call returns. -/
theorem dropCall (h : History s) (hfind : (s.calls.find? fun c => c.1 = t) = some (t, phase))
    (hnone : phase.message = none) : History (s.dropCall t) := by
  have hflight := filterMap_eraseP hfind
  rw [hnone] at hflight
  exact ⟨(((hflight.append_left _).append_right _).append_right _).trans h.once, h.ids,
    (hflight.append_left _).trans h.taken, h.order⟩

theorem proceed (h : History s) (hfind : (s.calls.find? fun c => c.1 = t) = some (t, phase))
    (held buffer : List (BitVec 8)) : History (s.proceed t held buffer) := by
  unfold Spec.proceed
  rw [hfind]
  cases phase with
  | sending urgent bytes => exact h.congr (filterMap_setPhase hfind rfl)
  | written urgent bytes held => exact (h.dropCall hfind rfl).link urgent bytes held
  | receiving size message => exact h.congr (filterMap_setPhase hfind rfl)
  | read size message => exact h.receive hfind buffer

omit [DecidableEq Thread] in
/-- The queue is discarded. -/
theorem discard (h : History s) : History s.discard := by
  refine ⟨?_, h.ids, h.taken, h.order.sublist (List.Sublist.filter _ ?_)⟩
  · change (_ ++ [] ++ (s.discarded ++ s.queue)).Perm _
    rw [List.append_nil]
    refine List.Perm.trans ?_ h.once
    rw [List.append_assoc _ s.queue]
    exact List.perm_append_comm.append_left _
  · exact List.Sublist.append_left (List.nil_sublist _) _

end History

end Messages

/-! ## Steps -/

/-- The invariant of a run. -/
structure Good (o : Observed Thread) : Prop where
  nodes : ∃ free queued, Inv free queued o
  history : History o.spec

namespace Good
variable {o : Observed Thread} {t : Thread}

omit [DecidableEq Thread] in
theorem withLists (h : Good o) (lists : WaitLists Unit Thread) :
    Good { o with mq := { o.mq with lists := lists } } := by
  obtain ⟨free, queued, hinv⟩ := h.nodes
  exact ⟨⟨free, queued, hinv.withLists lists⟩, h.history⟩

omit [DecidableEq Thread] in
theorem takeFree (h : Good o) (t : Thread) (urgent : Bool) (buffer : List (BitVec 8)) :
    Good (o.send t urgent buffer (o.mq.takeFree t urgent buffer)) := by
  obtain ⟨free, queued, hinv⟩ := h.nodes
  obtain ⟨free', hinv'⟩ := hinv.takeFree t urgent buffer
  exact ⟨⟨free', queued, hinv'⟩, h.history.send t urgent buffer _⟩

/-- One part of a call, by how far it has come. -/
theorem proceed (h : Good o) {call : Call Thread}
    (hfind : (o.mq.calls.find? fun c => c.caller = t) = some call) : Good (o.proceed t call) := by
  obtain ⟨free, queued, hinv⟩ := h.nodes
  obtain ⟨phase, hphase, hcaller, hfollows⟩ := find_matches hinv.calls hfind
  refine ⟨?_, h.history.proceed hphase _ _⟩
  unfold Observed.proceed Spec.proceed RtMessageQueue.proceed Call.buffer
  rw [hphase]
  generalize call.stage = stage at hfollows
  cases hfollows with
  | sending hlen => exact ⟨free, queued, hinv.fill hfind hlen hcaller.symm⟩
  | @written urgent _ _ _ hnext hholds =>
    cases urgent with
    | false => exact ⟨free, _, hinv.linkLast hfind (hnext rfl) hholds⟩
    | true => exact ⟨free, _, hinv.linkFirst hfind hholds⟩
  | receiving hholds => exact ⟨free, queued, hinv.copyOut hfind hcaller.symm hholds⟩
  | read hreceipt => exact ⟨_, queued, hinv.putFree hfind hreceipt⟩

theorem recvTurn (h : Good o) (t : Thread) (size : Nat) (timeout : Int) :
    Good (o.recv t size (o.mq.recvTurn t size timeout)) := by
  obtain ⟨free, queued, hinv⟩ := h.nodes
  unfold RtMessageQueue.recvTurn
  split
  · split
    · exact h.withLists _
    · exact ⟨⟨free, queued, (hinv.withLists _).wait t size timeout⟩, h.history.congr rfl⟩
  · rename_i hne
    obtain ⟨rest, hinv'⟩ := hinv.dequeue hne t size
    exact ⟨⟨free, rest, hinv'⟩, h.history.take t size⟩

theorem recv (h : Good o) (t : Thread) (size : Nat) (timeout : Int) :
    Good (o.recv t size (o.mq.rtMqRecv t size timeout)) := by
  unfold RtMessageQueue.rtMqRecv
  split
  · exact h
  · exact h.recvTurn t size timeout

theorem recvAgain (h : Good o) (t : Thread) (size : Nat) (timeout : Int)
    (elapsed : BitVec 32) : Good (o.recv t size (o.mq.recvAgain t size timeout elapsed)) := by
  unfold RtMessageQueue.recvAgain
  split
  · exact h.withLists _
  · exact (h.withLists (o.mq.lists.runAgain t)).recvTurn t size _

theorem reset (h : Good o) : Good { mq := o.mq.reset, spec := o.spec.discard } := by
  obtain ⟨free, queued, hinv⟩ := h.nodes
  exact ⟨⟨_, _, hinv.reset⟩, h.history.discard⟩

theorem step {o' : Observed Thread} {e : Event Thread} (h : Good o)
    (hstep : step o e = some o') : Good o' := by
  cases e with
  | send t buffer =>
    obtain ⟨-, heq⟩ := Option.ite_none_right_eq_some.mp hstep
    obtain rfl := Option.some.inj heq
    exact h.takeFree t false buffer
  | urgent t buffer =>
    obtain ⟨-, heq⟩ := Option.ite_none_right_eq_some.mp hstep
    obtain rfl := Option.some.inj heq
    exact h.takeFree t true buffer
  | recv t size timeout =>
    obtain ⟨-, heq⟩ := Option.ite_none_right_eq_some.mp hstep
    obtain rfl := Option.some.inj heq
    exact h.recv t size timeout
  | proceed t =>
    obtain ⟨call, hfind, rfl⟩ := Option.map_eq_some_iff.mp hstep
    exact h.proceed hfind
  | timeout t =>
    obtain ⟨-, heq⟩ := Option.ite_none_right_eq_some.mp hstep
    obtain rfl := Option.some.inj heq
    exact h.withLists _
  | run t elapsed =>
    obtain ⟨-, heq⟩ := Option.ite_none_right_eq_some.mp hstep
    obtain ⟨⟨size, timeout⟩, hwaiting, rfl⟩ := Option.map_eq_some_iff.mp heq
    obtain ⟨free, queued, hinv⟩ := h.nodes
    rw [hinv.asked t size timeout hwaiting]
    exact h.recvAgain t size timeout elapsed
  | reset =>
    obtain rfl := Option.some.inj hstep
    exact h.reset

omit [DecidableEq Thread] in
theorem toConserved (h : Good o) : Conserved o := by
  obtain ⟨free, queued, hinv⟩ := h.nodes
  exact ⟨⟨free, queued, hinv.freeChain, hinv.queueChain, hinv.tail, hinv.entry, hinv.queue,
    hinv.nodes⟩, hinv.calls, hinv.receipts, h.history⟩

end Good

omit [DecidableEq Thread] in
theorem good_start (flag : IpcFlag) (msgSize poolSize : Nat) (next : Nat → Option Nat)
    (data : Nat → Nat → BitVec 8) (priority : Thread → Nat) :
    Good (start flag msgSize poolSize next data priority) := by
  obtain ⟨next', p, heq, hchain⟩ := @initLoop_spec Thread
    { flag := flag
      msgSize := RtMessageQueue.alignedSize msgSize
      maxMsgs := RtMessageQueue.capacity msgSize poolSize
      next := next
      data := data
      lists := WaitLists.idle priority } rfl
    (RtMessageQueue.capacity msgSize poolSize).toNat
  rw [start, RtMessageQueue.rtMqInit, heq]
  refine ⟨⟨_, [], hchain, rfl, rfl, rfl, ?_, .nil, .nil, fun _ _ _ hwaiting =>
    (by cases hwaiting), fun r hr => absurd hr List.not_mem_nil⟩, ⟨.refl _, rfl, .refl _, .nil⟩⟩
  dsimp only
  rw [List.append_nil, List.map_nil, List.append_nil]
  exact List.reverse_perm _

/-- Whoever sends, receives and resets, and whatever runs between the parts of a call. -/
theorem conserved_throughout (flag : IpcFlag) (msgSize poolSize : Nat) (next : Nat → Option Nat)
    (data : Nat → Nat → BitVec 8) (priority : Thread → Nat) (es : List (Event Thread)) :
    Throughout step Conserved (start flag msgSize poolSize next data priority) es :=
  throughout_of_keep (fun _ h => h.toConserved) (fun _ _ _ h hstep => h.step hstep)
    (good_start flag msgSize poolSize next data priority) es

/-- A receiver gets its message and nothing else. -/
def Exact (o : Observed Thread) : Prop :=
  ∀ r ∈ o.spec.received, ∀ m ∈ r.message, r.buffer = m.bytes

/-- One byte is sent, and a receiver with a buffer of four gets what the node held behind it
as well. -/
theorem short_message_is_padded :
    ¬ Throughout step Exact
      (start .fifo 4 8 (fun _ => none) (fun _ _ => 0xFF) fun _ : Unit => 0)
      [.send () [0x41], .proceed (), .proceed (), .recv () 4 0, .proceed (), .proceed ()] := by
  intro h
  have hrun : ∃ o, run step
      (start .fifo 4 8 (fun _ => none) (fun _ _ => 0xFF) fun _ : Unit => 0)
      [.send () [0x41], .proceed (), .proceed (), .recv () 4 0, .proceed (), .proceed ()] =
        some o ∧ o.spec.received = [⟨some ⟨0, false, [0x41], [0xFF, 0xFF, 0xFF, 0xFF]⟩, 4,
          [0x41, 0xFF, 0xFF, 0xFF]⟩] :=
    ⟨_, rfl, rfl⟩
  obtain ⟨o, ho, hreceived⟩ := hrun
  have := h.last ho _ (hreceived ▸ List.mem_cons_self) _ rfl
  exact absurd this (by decide)

end ControlRTT.Kernel.MessageQueue

import ControlRTT.Kernel.MessageQueue

/-! # The nodes of a message queue

The nodes on the free list, those of the queue and those that calls hold are the nodes of
the pool. Each queued node holds its message, and each call is where the specification has
it. -/
namespace ControlRTT.Kernel.MessageQueue
open ControlRTT.Lib.LinkedList ControlRTT.Kernel.Thread

variable {Thread : Type} [DecidableEq Thread]

/-! ## Calls side by side -/

section Calls
variable {mq mq' : RtMessageQueue Thread} {t : Thread} {call : Call Thread}
  {cs : List (Thread × Phase)} {calls : List (Call Thread)}

omit [DecidableEq Thread] in
/-- Two lists stay side by side if what changes leaves the elements of the second alone. -/
theorem forall₂_congr_right {α β : Type} {R S : α → β → Prop} {as : List α} {bs : List β}
    (h : List.Forall₂ R as bs) (hRS : ∀ a, ∀ b ∈ bs, R a b → S a b) : List.Forall₂ S as bs := by
  induction h with
  | nil => exact .nil
  | cons hab _ ih =>
    refine .cons (hRS _ _ List.mem_cons_self hab) (ih fun a b hb => ?_)
    exact hRS a b (List.mem_cons_of_mem _ hb)

/-- The call that goes on is the first of its thread on both sides. -/
theorem find_matches (h : List.Forall₂ (Matches mq) cs calls)
    (hfind : (calls.find? fun c => c.caller = t) = some call) :
    ∃ phase, (cs.find? fun c => c.1 = t) = some (t, phase) ∧ Matches mq (t, phase) call := by
  induction h with
  | nil => cases hfind
  | @cons c call' cs calls hc _ ih =>
    rw [List.find?_cons] at hfind ⊢
    by_cases ht : call'.caller = t
    · have htc : c.1 = t := hc.1.trans ht
      rw [decide_eq_true ht] at hfind
      obtain rfl := Option.some.inj hfind
      rw [decide_eq_true htc]
      exact ⟨c.2, congrArg some (Prod.ext htc rfl), htc ▸ hc⟩
    · have htc : ¬ c.1 = t := fun heq => ht (hc.1.symm.trans heq)
      rw [decide_eq_false ht] at hfind
      rw [decide_eq_false htc]
      exact ih hfind

/-- It leaves both sides. -/
theorem forall₂_drop (h : List.Forall₂ (Matches mq) cs calls)
    (hfind : (calls.find? fun c => c.caller = t) = some call) :
    List.Forall₂ (Matches mq) (cs.eraseP fun c => c.1 = t) (calls.erase call) := by
  have hcaller : call.caller = t := by simpa using List.find?_some hfind
  induction h with
  | nil => cases hfind
  | @cons c call' cs calls hc hcs ih =>
    rw [List.find?_cons] at hfind
    by_cases ht : call'.caller = t
    · have htc : c.1 = t := hc.1.trans ht
      rw [decide_eq_true ht] at hfind
      obtain rfl := Option.some.inj hfind
      rw [List.eraseP_cons_of_pos (by simpa using htc), List.erase_cons_head]
      exact hcs
    · have htc : ¬ c.1 = t := fun heq => ht (hc.1.symm.trans heq)
      have hne : call' ≠ call := fun heq => ht (heq ▸ hcaller)
      rw [decide_eq_false ht] at hfind
      rw [List.eraseP_cons_of_neg (by simpa using htc),
        List.erase_cons_tail (by simpa using hne)]
      exact .cons hc (ih hfind)

/-- It goes on on both sides. -/
theorem forall₂_setPhase (h : List.Forall₂ (Matches mq) cs calls) (hnodup : calls.Nodup)
    (hfind : (calls.find? fun c => c.caller = t) = some call) {phase : Phase} {stage : Stage}
    (hnext : Matches mq' (t, phase) { call with stage := stage })
    (hsame : ∀ c, ∀ call' ∈ calls, call' ≠ call → Matches mq c call' → Matches mq' c call') :
    List.Forall₂ (Matches mq') (Spec.setPhase t phase cs)
      (calls.map fun c => if c = call then { c with stage := stage } else c) := by
  have hcaller : call.caller = t := by simpa using List.find?_some hfind
  induction h with
  | nil => cases hfind
  | @cons c call' cs calls hc hcs ih =>
    obtain ⟨hnot, hnodup⟩ := List.nodup_cons.mp hnodup
    rw [List.find?_cons] at hfind
    rw [Spec.setPhase, List.map_cons]
    by_cases ht : call'.caller = t
    · rw [decide_eq_true ht] at hfind
      obtain rfl := Option.some.inj hfind
      rw [if_pos (hc.1.trans ht), if_pos rfl]
      refine .cons hnext ?_
      -- no other call is this one
      have hrest : (calls.map fun c => if c = call' then { c with stage := stage } else c) =
          calls := by
        refine (List.map_congr_left fun c hmem => ?_).trans (List.map_id calls)
        exact if_neg (ne_of_mem_of_not_mem hmem hnot)
      rw [hrest]
      exact forall₂_congr_right hcs fun c call hmem =>
        hsame c call (List.mem_cons_of_mem _ hmem) (ne_of_mem_of_not_mem hmem hnot)
    · have hne : call' ≠ call := fun heq => ht (heq ▸ hcaller)
      rw [decide_eq_false ht] at hfind
      rw [if_neg fun heq => ht (hc.1.symm.trans heq), if_neg hne]
      refine .cons (hsame c call' List.mem_cons_self hne hc) ?_
      exact ih hnodup hfind fun c call hmem => hsame c call (List.mem_cons_of_mem _ hmem)

end Calls

omit [DecidableEq Thread] in
/-- What happens to other nodes does not matter. -/
theorem Matches.congr {mq mq' : RtMessageQueue Thread} {c : Thread × Phase} {call : Call Thread}
    (h : Matches mq c call) (hsize : mq'.msgSize = mq.msgSize)
    (hnext : mq'.next call.node = mq.next call.node)
    (hdata : mq'.data call.node = mq.data call.node) : Matches mq' c call := by
  have hcontent : mq'.content call.node = mq.content call.node := by
    rw [RtMessageQueue.content, RtMessageQueue.content, hsize, hdata]
  unfold Matches
  rw [hsize, hnext, hcontent]
  exact h

structure Inv (free queued : List Nat) (o : Observed Thread) : Prop where
  freeChain : Chain o.mq.next o.mq.msgQueueFree free
  queueChain : Chain o.mq.next o.mq.msgQueueHead queued
  tail : o.mq.msgQueueTail = queued.getLast?
  entry : o.mq.entry.toNat = queued.length
  nodes : (free ++ queued ++ o.mq.calls.map Call.node).Perm (List.range o.mq.maxMsgs.toNat)
  queue : List.Forall₂ (Holds o.mq) o.spec.queue queued
  calls : List.Forall₂ (Matches o.mq) o.spec.calls o.mq.calls
  asked : ∀ t size timeout, o.mq.waiting t = some (size, timeout) → o.spec.asked t = size
  receipts : ∀ r ∈ o.spec.received, r.Of o.mq.msgSize.toNat

omit [DecidableEq Thread] in
theorem copyOut_eq (mq : RtMessageQueue Thread) (msg size : Nat) :
    mq.copyOut msg size = (mq.content msg).take size := by
  have hmin : (if size > mq.msgSize.toNat then mq.msgSize.toNat else size) =
      min size mq.msgSize.toNat := by
    rw [Nat.min_def]
    split <;> split <;> omega
  unfold RtMessageQueue.copyOut RtMessageQueue.content
  rw [hmin, ← List.map_take, List.take_range]

omit [DecidableEq Thread] in
theorem content_length (mq : RtMessageQueue Thread) (msg : Nat) :
    (mq.content msg).length = mq.msgSize.toNat := by
  rw [RtMessageQueue.content, List.length_map, List.length_range]

omit [DecidableEq Thread] in
/-- Behind a shorter message a node keeps what it held. -/
theorem content_copyIn (mq : RtMessageQueue Thread) (msg : Nat) {buffer : List (BitVec 8)}
    (hlen : buffer.length ≤ mq.msgSize.toNat) :
    (mq.copyIn msg buffer).content msg = buffer ++ (mq.content msg).drop buffer.length := by
  refine List.ext_getElem? fun i => ?_
  unfold RtMessageQueue.content RtMessageQueue.copyIn
  dsimp only
  rw [Function.update_self, List.getElem?_map, List.getElem?_append, List.getElem?_drop,
    List.getElem?_map]
  by_cases hi : i < buffer.length
  · rw [if_pos hi, List.getElem?_range (by omega), Option.map_some, List.getElem?_eq_getElem hi,
      List.getD_eq_getElem?_getD, List.getElem?_eq_getElem hi, Option.getD_some]
  · have hat : buffer.length + (i - buffer.length) = i := by omega
    rw [if_neg hi, hat]
    by_cases hr : i < mq.msgSize.toNat
    · rw [List.getElem?_range hr, Option.map_some, Option.map_some, List.getD_eq_getElem?_getD,
        List.getElem?_eq_none (Nat.le_of_not_lt hi), Option.getD_none]
    · rw [List.getElem?_eq_none (by rw [List.length_range]; omega), Option.map_none,
        Option.map_none]

/-- The tail after the first node is unlinked. -/
theorem tail_unlink {n : Nat} {rest : List Nat} (hnot : n ∉ rest) {tail : Option Nat}
    (h : tail = (n :: rest).getLast?) :
    (if tail = some n then none else tail) = rest.getLast? := by
  subst h
  cases rest with
  | nil => exact if_pos rfl
  | cons m rest =>
    rw [List.getLast?_cons_cons]
    refine if_neg fun heq => hnot ?_
    exact List.mem_of_getLast? heq


namespace Inv
variable {o : Observed Thread} {free queued : List Nat} {t : Thread} {call : Call Thread}

omit [DecidableEq Thread] in
/-- The lists of threads do not matter. -/
theorem withLists (h : Inv free queued o) (lists : WaitLists Unit Thread) :
    Inv free queued { o with mq := { o.mq with lists := lists } } :=
  ⟨h.freeChain, h.queueChain, h.tail, h.entry, h.nodes, h.queue, h.calls, h.asked, h.receipts⟩

/-- A receive is blocked. -/
theorem wait (h : Inv free queued o) (t : Thread) (size : Nat) (timeout : Int) :
    Inv free queued
      { mq := o.mq.wait t size timeout
        spec := { o.spec with asked := Function.update o.spec.asked t size } } := by
  refine ⟨h.freeChain, h.queueChain, h.tail, h.entry, h.nodes, h.queue, h.calls,
    fun u size' timeout' hu => ?_, h.receipts⟩
  change Function.update o.mq.waiting t _ u = _ at hu
  by_cases hut : u = t
  · subst hut
    rw [Function.update_self] at hu
    cases hu
    exact Function.update_self _ _ _
  · rw [Function.update_of_ne hut] at hu
    exact (Function.update_of_ne hut _ _).trans (h.asked u size' timeout' hu)

omit [DecidableEq Thread] in
theorem nodup (h : Inv free queued o) :
    (free ++ queued ++ o.mq.calls.map Call.node).Nodup :=
  h.nodes.nodup_iff.mpr List.nodup_range

omit [DecidableEq Thread] in
theorem nodup_calls (h : Inv free queued o) : o.mq.calls.Nodup :=
  (List.nodup_append.mp h.nodup).2.1.of_map

omit [DecidableEq Thread] in
/-- The node of a call is on no list. -/
theorem notMem (h : Inv free queued o) (hcall : call ∈ o.mq.calls) :
    call.node ∉ free ∧ call.node ∉ queued := by
  have hnode := List.mem_map_of_mem (f := Call.node) hcall
  have hdisj := (List.nodup_append.mp h.nodup).2.2
  refine ⟨fun hmem => ?_, fun hmem => ?_⟩
  · exact hdisj _ (List.mem_append_left _ hmem) _ hnode rfl
  · exact hdisj _ (List.mem_append_right _ hmem) _ hnode rfl

omit [DecidableEq Thread] in
/-- Calls hold different nodes. -/
theorem node_ne (h : Inv free queued o) (hcall : call ∈ o.mq.calls) {call' : Call Thread}
    (hcall' : call' ∈ o.mq.calls) (hne : call' ≠ call) : call'.node ≠ call.node := fun heq =>
  hne (List.inj_on_of_nodup_map (List.nodup_append.mp h.nodup).2.1 hcall' hcall heq)

/-! ## Sends -/

omit [DecidableEq Thread] in
theorem takeFree (h : Inv free queued o) (t : Thread) (urgent : Bool)
    (buffer : List (BitVec 8)) :
    ∃ free, Inv free queued (o.send t urgent buffer (o.mq.takeFree t urgent buffer)) := by
  unfold RtMessageQueue.takeFree
  split
  · exact ⟨free, h⟩
  · rename_i hlen
    split
    · exact ⟨free, h⟩
    · rename_i msg hfree
      obtain ⟨rest, rfl, hrest⟩ := (hfree ▸ h.freeChain : Chain _ (some msg) free).of_some
      refine ⟨rest, hrest, h.queueChain, h.tail, h.entry, ?_, h.queue, ?_, h.asked, h.receipts⟩
      · refine List.Perm.trans ?_ h.nodes
        simp only [Observed.send, List.map_append, List.map_singleton, List.cons_append]
        rw [← List.append_assoc]
        exact List.perm_append_singleton _ _
      · exact List.rel_append h.calls (.cons ⟨rfl, .sending (Nat.le_of_not_lt hlen)⟩ .nil)

/-- The nodes that are held stay the same. -/
theorem map_node_setStage (mq : RtMessageQueue Thread) (call : Call Thread) (stage : Stage) :
    (mq.setStage call stage).calls.map Call.node = mq.calls.map Call.node := by
  unfold RtMessageQueue.setStage
  rw [List.map_map]
  refine List.map_congr_left fun c _ => ?_
  dsimp only [Function.comp_apply]
  split
  · rfl
  · rfl

theorem fill_eq (mq : RtMessageQueue Thread) (call : Call Thread) (urgent : Bool)
    (buffer : List (BitVec 8)) : mq.fill call urgent buffer = { mq with
      next := if urgent then mq.next else Function.update mq.next call.node none
      data := (mq.copyIn call.node buffer).data
      calls := (mq.setStage call (.filled urgent buffer)).calls } := by
  cases urgent with
  | false => rfl
  | true => rfl

theorem fill (h : Inv free queued o)
    (hfind : (o.mq.calls.find? fun c => c.caller = t) = some call) {urgent : Bool}
    {bytes : List (BitVec 8)} (hlen : bytes.length ≤ o.mq.msgSize.toNat)
    (hcaller : call.caller = t) :
    Inv free queued
      { mq := o.mq.fill call urgent bytes
        spec := { o.spec with
          calls := Spec.setPhase t (.written urgent bytes (o.mq.content call.node))
            o.spec.calls } } := by
  have hcall := List.mem_of_find?_eq_some hfind
  obtain ⟨hfree, hqueued⟩ := h.notMem hcall
  have hnext : ∀ n, n ≠ call.node →
      (if urgent then o.mq.next else Function.update o.mq.next call.node none) n =
        o.mq.next n := by
    intro n hn
    split
    · rfl
    · exact Function.update_of_ne hn _ _
  have hdata : ∀ n, n ≠ call.node → (o.mq.copyIn call.node bytes).data n = o.mq.data n :=
    fun n hn => Function.update_of_ne hn _ _
  rw [fill_eq]
  refine ⟨h.freeChain.congr fun n hn => hnext n (ne_of_mem_of_not_mem hn hfree),
    h.queueChain.congr fun n hn => hnext n (ne_of_mem_of_not_mem hn hqueued), h.tail, h.entry,
    ?_, ?_, ?_, h.asked, h.receipts⟩
  · dsimp only
    rw [map_node_setStage]
    exact h.nodes
  · refine forall₂_congr_right h.queue fun m n hn hholds => ?_
    refine (congrArg (List.map · _) ?_).trans hholds
    exact hdata n (ne_of_mem_of_not_mem hn hqueued)
  · refine forall₂_setPhase h.calls h.nodup_calls hfind
      ⟨hcaller.symm, .written (fun hu => ?_) ?_⟩ fun c call' hmem hne hmatch => ?_
    · dsimp only
      rw [hu]
      exact Function.update_self _ _ _
    · exact content_copyIn o.mq call.node hlen
    · have hnode := h.node_ne hcall hmem hne
      exact hmatch.congr rfl (hnext _ hnode) (hdata _ hnode)

/-- A node leaves the calls. -/
theorem perm_erase {calls : List (Call Thread)} (hcall : call ∈ calls) :
    (calls.map Call.node).Perm (call.node :: (calls.erase call).map Call.node) :=
  (List.perm_cons_erase hcall).map Call.node

theorem mem_erase (h : Inv free queued o) (hcall : call ∈ o.mq.calls) {c : Call Thread}
    (hc : c ∈ o.mq.calls.erase call) : c ∈ o.mq.calls ∧ c.node ≠ call.node := by
  obtain ⟨hne, hmem⟩ := h.nodup_calls.mem_erase_iff.mp hc
  exact ⟨hmem, h.node_ne hcall hmem hne⟩

omit [DecidableEq Thread] in
/-- The entry counter has room for the nodes that are held. -/
theorem entry_succ (h : Inv free queued o) (hcall : call ∈ o.mq.calls) :
    (o.mq.entry + 1).toNat = queued.length + 1 := by
  have hlen := h.nodes.length_eq
  have hpos := List.length_pos_of_mem hcall
  have hmax := o.mq.maxMsgs.isLt
  have hentry := h.entry
  simp only [List.length_append, List.length_map, List.length_range] at hlen
  bv_omega

/-- The calls that are left when one returns. -/
theorem calls_drop (h : Inv free queued o)
    (hfind : (o.mq.calls.find? fun c => c.caller = t) = some call) (mq : RtMessageQueue Thread)
    (hsize : mq.msgSize = o.mq.msgSize)
    (hnext : ∀ n, n ∉ queued → n ≠ call.node → mq.next n = o.mq.next n)
    (hdata : mq.data = o.mq.data) :
    List.Forall₂ (Matches mq) (o.spec.calls.eraseP fun c => c.1 = t)
      (o.mq.calls.erase call) := by
  refine forall₂_congr_right (forall₂_drop h.calls hfind) fun c call' hmem hmatch => ?_
  obtain ⟨hcall', hnode⟩ := h.mem_erase (List.mem_of_find?_eq_some hfind) hmem
  exact hmatch.congr hsize (hnext _ (h.notMem hcall').2 hnode) (congrFun hdata _)

theorem linkFirst (h : Inv free queued o)
    (hfind : (o.mq.calls.find? fun c => c.caller = t) = some call)
    {bytes held : List (BitVec 8)}
    (hholds : o.mq.content call.node = bytes ++ held.drop bytes.length) :
    Inv free (call.node :: queued)
      { mq := o.mq.link call true, spec := (o.spec.dropCall t).link true bytes held } := by
  have hcall := List.mem_of_find?_eq_some hfind
  obtain ⟨hfree, hqueued⟩ := h.notMem hcall
  refine ⟨h.freeChain.update hfree _, h.queueChain.push hqueued, ?_, h.entry_succ hcall, ?_,
    .cons hholds h.queue, ?_, h.asked, h.receipts⟩
  · change (if o.mq.msgQueueTail = none then some call.node else o.mq.msgQueueTail) = _
    rw [h.tail]
    cases queued with
    | nil => rfl
    | cons m rest =>
      rw [List.getLast?_cons_cons, if_neg]
      exact fun hnone => List.cons_ne_nil m rest (List.getLast?_eq_none_iff.mp hnone)
  · refine List.Perm.trans ?_ h.nodes
    refine List.Perm.trans ?_ ((perm_erase hcall).symm.append_left _)
    exact (List.perm_middle.append_right _).trans List.perm_middle.symm
  · refine h.calls_drop hfind (o.mq.link call true) rfl (fun n _ hne => ?_) rfl
    exact Function.update_of_ne hne _ _

theorem linkLast (h : Inv free queued o)
    (hfind : (o.mq.calls.find? fun c => c.caller = t) = some call)
    {bytes held : List (BitVec 8)} (hnext : o.mq.next call.node = none)
    (hholds : o.mq.content call.node = bytes ++ held.drop bytes.length) :
    Inv free (queued ++ [call.node])
      { mq := o.mq.link call false, spec := (o.spec.dropCall t).link false bytes held } := by
  have hcall := List.mem_of_find?_eq_some hfind
  obtain ⟨hfree, hqueued⟩ := h.notMem hcall
  obtain ⟨hnodup, -, -⟩ := List.nodup_append.mp h.nodup
  obtain ⟨-, hqnodup, hdisj⟩ := List.nodup_append.mp hnodup
  -- only the last node's pointer changes, if there is one
  have hsame : ∀ n, n ∉ queued → (o.mq.linkLast call.node).next n = o.mq.next n := by
    intro n hn
    unfold RtMessageQueue.linkLast
    dsimp only
    cases htail : o.mq.msgQueueTail with
    | none => rfl
    | some tail =>
      have hmem : tail ∈ queued := List.mem_of_getLast? (h.tail.symm.trans htail)
      exact Function.update_of_ne (ne_of_mem_of_not_mem hmem hn).symm _ _
  have hchain : Chain (o.mq.linkLast call.node).next
      (if o.mq.msgQueueHead = none then some call.node else o.mq.msgQueueHead)
      (queued ++ [call.node]) := by
    unfold RtMessageQueue.linkLast
    dsimp only
    split
    · rename_i tail htail
      have hlast := h.tail.symm.trans htail
      rw [if_neg fun hnone => by rw [h.queueChain.eq_none_iff.mp hnone] at hlast; cases hlast]
      exact h.queueChain.append hqnodup hlast hqueued hnext
    · rename_i htail
      have hnil := List.getLast?_eq_none_iff.mp (h.tail.symm.trans htail)
      rw [if_pos (h.queueChain.eq_none_iff.mpr hnil), hnil]
      exact ⟨rfl, hnext⟩
  refine ⟨h.freeChain.congr fun n hn => hsame n fun hmem => hdisj n hn n hmem rfl, hchain,
    (List.getLast?_concat).symm, ?_, ?_, ?_, ?_, h.asked, h.receipts⟩
  · refine (h.entry_succ hcall).trans ?_
    rw [List.length_append, List.length_singleton]
  · refine List.Perm.trans ?_ h.nodes
    refine List.Perm.trans ?_ ((perm_erase hcall).symm.append_left _)
    rw [← List.append_assoc, List.append_assoc]
    rfl
  · exact List.rel_append h.queue (.cons hholds .nil)
  · exact h.calls_drop hfind (o.mq.link call false) rfl (fun n hn _ => hsame n hn) rfl

/-! ## Receives -/

omit [DecidableEq Thread] in
/-- The first node goes to a call. -/
theorem dequeue (h : Inv free queued o) (hne : o.mq.entry ≠ 0) (t : Thread) (size : Nat) :
    ∃ rest, Inv free rest { mq := o.mq.dequeue t size, spec := o.spec.take t size } := by
  cases queued with
  | nil => exact absurd (BitVec.eq_of_toNat_eq h.entry) hne
  | cons n rest =>
    obtain ⟨hhead, hrest⟩ := h.queueChain
    obtain ⟨hnodup, -, -⟩ := List.nodup_append.mp h.nodup
    have hnot : n ∉ rest := (List.nodup_cons.mp (List.nodup_append.mp hnodup).2.1).1
    obtain ⟨m, ms, hholds, hqueue, hspec⟩ := List.forall₂_cons_right_iff.mp h.queue
    have heq : o.mq.dequeue t size = { o.mq with
        msgQueueHead := o.mq.next n
        msgQueueTail := if o.mq.msgQueueTail = some n then none else o.mq.msgQueueTail
        entry := o.mq.entry - 1
        calls := o.mq.calls ++ [⟨t, n, .reading size⟩] } := by
      rw [RtMessageQueue.dequeue, hhead]
    rw [heq, Spec.take, hspec]
    refine ⟨rest, h.freeChain, hrest, tail_unlink hnot h.tail, ?_, ?_, hqueue, ?_, h.asked,
      h.receipts⟩
    · have hentry := h.entry
      rw [List.length_cons] at hentry
      change (o.mq.entry - 1).toNat = rest.length
      bv_omega
    · refine List.Perm.trans ?_ h.nodes
      dsimp only
      rw [List.map_append, List.map_singleton, ← List.append_assoc]
      refine (List.perm_append_singleton _ _).trans ?_
      exact (List.perm_middle.append_right _).symm
    · exact List.rel_append h.calls (.cons ⟨rfl, .receiving hholds⟩ .nil)

theorem copyOut (h : Inv free queued o)
    (hfind : (o.mq.calls.find? fun c => c.caller = t) = some call) (hcaller : call.caller = t)
    {size : Nat} {m : Message} (hholds : Holds o.mq m call.node) :
    Inv free queued
      { mq := o.mq.setStage call (.done size (o.mq.copyOut call.node size))
        spec := { o.spec with
          calls := Spec.setPhase t (.read size (some m)) o.spec.calls } } := by
  refine ⟨h.freeChain, h.queueChain, h.tail, h.entry, ?_, h.queue, ?_, h.asked, h.receipts⟩
  · dsimp only
    rw [map_node_setStage]
    exact h.nodes
  · refine forall₂_setPhase h.calls h.nodup_calls hfind
      ⟨hcaller.symm, .read ⟨m, rfl, ?_, ?_⟩⟩ fun c call' _ _ hmatch => hmatch
    · dsimp only
      rw [copyOut_eq, List.length_take, content_length]
      rfl
    · dsimp only
      rw [copyOut_eq, hholds]

theorem putFree (h : Inv free queued o)
    (hfind : (o.mq.calls.find? fun c => c.caller = t) = some call) {r : Receipt}
    (hr : r.Of o.mq.msgSize.toNat) :
    Inv (call.node :: free) queued
      { mq := (o.mq.putFree call.node).dropCall call
        spec := { o.spec.dropCall t with received := o.spec.received ++ [r] } } := by
  have hcall := List.mem_of_find?_eq_some hfind
  obtain ⟨hfree, hqueued⟩ := h.notMem hcall
  refine ⟨h.freeChain.push hfree, h.queueChain.update hqueued _, h.tail, h.entry, ?_, h.queue,
    ?_, h.asked, fun r' hr' => ?_⟩
  · refine List.Perm.trans ?_ h.nodes
    refine List.Perm.trans ?_ ((perm_erase hcall).symm.append_left _)
    exact List.perm_middle.symm
  · refine h.calls_drop hfind ((o.mq.putFree call.node).dropCall call) rfl
      (fun n _ hne => ?_) rfl
    exact Function.update_of_ne hne _ _
  · obtain hr' | hr' := List.mem_append.mp hr'
    · exact h.receipts r' hr'
    · exact List.mem_singleton.mp hr' ▸ hr

end Inv

/-! ## Resets -/

omit [DecidableEq Thread] in
/-- What the loop comes to if it has turns enough. -/
theorem releaseLoop_spec (fuel : Nat) {mq : RtMessageQueue Thread} {free queued : List Nat}
    (hfree : Chain mq.next mq.msgQueueFree free) (hqueue : Chain mq.next mq.msgQueueHead queued)
    (htail : mq.msgQueueTail = queued.getLast?) (hnodup : (free ++ queued).Nodup)
    (hfuel : queued.length ≤ fuel) :
    ∃ next p, RtMessageQueue.releaseLoop fuel mq = { mq with
        next := next
        msgQueueHead := none
        msgQueueTail := none
        msgQueueFree := p } ∧
      Chain next p (queued.reverse ++ free) ∧ ∀ n, n ∉ queued → next n = mq.next n := by
  induction fuel generalizing mq free queued with
  | zero =>
    obtain rfl := List.length_eq_zero_iff.mp (Nat.le_zero.mp hfuel)
    refine ⟨mq.next, mq.msgQueueFree, ?_, hfree, fun _ _ => rfl⟩
    rw [RtMessageQueue.releaseLoop]
    cases mq
    cases hqueue
    cases htail
    rfl
  | succ fuel ih =>
    cases queued with
    | nil =>
      refine ⟨mq.next, mq.msgQueueFree, ?_, hfree, fun _ _ => rfl⟩
      rw [RtMessageQueue.releaseLoop]
      cases mq
      cases hqueue
      cases htail
      rfl
    | cons n rest =>
      obtain ⟨hhead, hrest⟩ := hqueue
      obtain ⟨hfreeNodup, hcons, hdisj⟩ := List.nodup_append.mp hnodup
      obtain ⟨hnot, hrestNodup⟩ := List.nodup_cons.mp hcons
      have hnfree : n ∉ free := fun hmem => hdisj n hmem n List.mem_cons_self rfl
      have hnodup' : (n :: free ++ rest).Nodup := by
        refine List.nodup_append.mpr ⟨List.nodup_cons.mpr ⟨hnfree, hfreeNodup⟩, hrestNodup, ?_⟩
        intro a ha b hb
        obtain rfl | ha := List.mem_cons.mp ha
        · exact (ne_of_mem_of_not_mem hb hnot).symm
        · exact hdisj a ha b (List.mem_cons_of_mem n hb)
      obtain ⟨next, p, heq, hchain, hsame⟩ := @ih
        ({ mq with
          msgQueueHead := mq.next n
          msgQueueTail := if mq.msgQueueTail = some n then none else mq.msgQueueTail }.putFree n)
        (n :: free) rest (hfree.push hnfree) (hrest.update hnot _) (tail_unlink hnot htail)
        hnodup' (Nat.le_of_succ_le_succ hfuel)
      refine ⟨next, p, ?_, ?_, fun m hm => ?_⟩
      · rw [RtMessageQueue.releaseLoop, hhead]
        exact heq
      · rw [List.reverse_cons, List.append_assoc]
        exact hchain
      · rw [List.mem_cons, not_or] at hm
        exact (hsame m hm.2).trans (Function.update_of_ne hm.1 _ _)

theorem Inv.reset_eq {o : Observed Thread} {free queued : List Nat} (h : Inv free queued o) :
    ∃ next p, o.mq.reset = { o.mq with
        lists := o.mq.lists.rtIpcListResumeAll ()
        next := next
        msgQueueHead := none
        msgQueueTail := none
        msgQueueFree := p
        entry := 0 } ∧
      Chain next p (queued.reverse ++ free) ∧ ∀ n, n ∉ queued → next n = o.mq.next n := by
  have hlen : queued.length ≤ o.mq.maxMsgs.toNat := by
    have := h.nodes.length_eq
    simp only [List.length_append, List.length_range] at this
    omega
  obtain ⟨hnodup, -, -⟩ := List.nodup_append.mp h.nodup
  obtain ⟨next, p, heq, hchain, hsame⟩ := @releaseLoop_spec Thread o.mq.maxMsgs.toNat
    { o.mq with lists := o.mq.lists.rtIpcListResumeAll () } free queued h.freeChain h.queueChain
    h.tail hnodup hlen
  exact ⟨next, p, by rw [RtMessageQueue.reset, heq], hchain, hsame⟩

theorem Inv.reset {o : Observed Thread} {free queued : List Nat} (h : Inv free queued o) :
    Inv (queued.reverse ++ free) [] { mq := o.mq.reset, spec := o.spec.discard } := by
  obtain ⟨next, p, heq, hchain, hsame⟩ := h.reset_eq
  rw [heq]
  refine ⟨hchain, rfl, rfl, rfl, ?_, .nil, ?_, h.asked, h.receipts⟩
  · refine List.Perm.trans ?_ h.nodes
    rw [List.append_nil]
    refine List.Perm.append_right _ ?_
    exact (List.perm_append_comm).trans ((List.reverse_perm queued).append_left free)
  · exact forall₂_congr_right h.calls fun c call hmem hmatch =>
      hmatch.congr rfl (hsame _ (h.notMem hmem).2) rfl

/-! ## The first state -/

omit [DecidableEq Thread] in
theorem initLoop_spec (mq : RtMessageQueue Thread) (hfree : mq.msgQueueFree = none) (n : Nat) :
    ∃ next p, mq.initLoop n = { mq with next := next, msgQueueFree := p } ∧
      Chain next p (List.range n).reverse := by
  induction n with
  | zero =>
    refine ⟨mq.next, mq.msgQueueFree, rfl, ?_⟩
    rw [hfree]
    exact rfl
  | succ n ih =>
    obtain ⟨next, p, heq, hchain⟩ := ih
    refine ⟨Function.update next n p, some n, ?_, ?_⟩
    · rw [RtMessageQueue.initLoop, heq]
      rfl
    · rw [List.range_succ, List.reverse_append]
      exact hchain.push (by simp)

end ControlRTT.Kernel.MessageQueue

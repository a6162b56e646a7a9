import ControlRTT.Drivers.DataQueue

/-! # DMA transmission of a serial device (serial.c)

A writer pushes its buffer on the queue, and then, in a critical section of its own, sees whether
a transfer is going on; if not, it starts one with its own buffer. The interrupt takes the head of
the queue for what has been sent. It is, and every buffer is sent once and in its turn, if no
writer starts a transfer while the head is the buffer of another (`inOrder_throughout`). -/
namespace ControlRTT.Drivers.SerialDmaTx
open ControlRTT.Lib.Runs ControlRTT.Kernel.Thread ControlRTT.Drivers.DataQueue

/-- Where a thread is in `_serial_dma_tx`: inside the push, between the push and the test of
`activated`, or between the test and the call of `dma_transmit`. -/
inductive Phase where
  | idle
  | pushing
  | pushed (item : Numbered)
  | starting (item : Numbered)
  deriving DecidableEq, Repr

/-- Where the push leaves a thread; `none` is inside the push. -/
def Phase.returned (item : Numbered) : Option Err → Phase
  | none => .pushing
  | some .eok => .pushed item
  | some _ => .idle

/-- `struct rt_serial_tx_dma`, the threads, whether the DMA is at work, and what it was given. -/
structure TxDma (Thread : Type) where
  dataQueue : Observed Thread
  activated : Bool := false
  phase : Thread → Phase := fun _ => .idle
  busy : Bool := false
  handed : List Numbered := []

variable {Thread : Type} [DecidableEq Thread]

inductive TxEvent (Thread : Type) where
  | write (t : Thread) (item : RtDataItem)
  | resume (t : Thread)
  | test (t : Thread)
  | start (t : Thread)
  | done (t : Thread)

namespace TxDma

def setPhase (s : TxDma Thread) (t : Thread) (p : Phase) : TxDma Thread :=
  { s with phase := Function.update s.phase t p }

/-- `dma_transmit` -/
def dmaTransmit (s : TxDma Thread) (item : Numbered) : TxDma Thread :=
  { s with handed := s.handed ++ [item], busy := true }

/-- A push, or a part of it. -/
def afterPush (s : TxDma Thread) (t : Thread) (item : RtDataItem)
    (result : RtDataQueue Thread × Option Err) : TxDma Thread :=
  { s with dataQueue := s.dataQueue.pushing t item result }.setPhase t
    (.returned (item, s.dataQueue.pushed.length) result.2)

/-- The critical section of `_serial_dma_tx`. -/
def test (s : TxDma Thread) (t : Thread) (item : Numbered) : TxDma Thread :=
  if s.activated = false then { s with activated := true }.setPhase t (.starting item)
  else s.setPhase t .idle

/-- `RT_SERIAL_EVENT_TX_DMADONE`, while `t` runs. -/
def txDmaDone (s : TxDma Thread) (t : Thread) : TxDma Thread :=
  let o := s.dataQueue.popping (s.dataQueue.queue.popTurn t 0)
  match o.queue.peak with
  | some item =>
    { s with dataQueue := o, activated := true }.dmaTransmit
      (item, o.writer (o.queue.slot o.queue.getIndex))
  | none => { s with dataQueue := o, activated := false, busy := false }

end TxDma

/-- A writer waits for a place in the queue as long as it takes. The interrupt comes when a
transfer has ended. -/
def step (s : TxDma Thread) : TxEvent Thread → Option (TxDma Thread)
  | .write t item =>
    if s.phase t = .idle ∧ s.dataQueue.queue.lists.Running t then
      some (s.afterPush t item (s.dataQueue.queue.pushTurn t item (-1)))
    else none
  | .resume t =>
    match s.phase t, s.dataQueue.queue.call t with
    | .pushing, some (.push item timeout) =>
      if t ∈ s.dataQueue.queue.lists.resumed then
        some (s.afterPush t (s.dataQueue.asked t) (s.dataQueue.queue.pushAgain t item timeout))
      else none
    | _, _ => none
  | .test t =>
    match s.phase t with
    | .pushed item => some (s.test t item)
    | _ => none
  | .start t =>
    match s.phase t with
    | .starting item => some ((s.setPhase t .idle).dmaTransmit item)
    | _ => none
  | .done t => if s.busy then some (s.txDmaDone t) else none

/-- `rt_data_queue_init(&(tx_dma->data_queue), 8, 4, RT_NULL)` -/
def start (queue : Nat → RtDataItem) (priority : Thread → Nat) : TxDma Thread where
  dataQueue := DataQueue.start 8 4 queue priority

/-- No transfer is going on and none is to be started. -/
def Quiet (s : TxDma Thread) : Prop :=
  s.busy = false ∧ ∀ t item, s.phase t ≠ .pushed item ∧ s.phase t ≠ .starting item

/-- The buffers go to the DMA once each, in the order of the pushes, and none is left over. -/
structure InOrder (s : TxDma Thread) : Prop where
  isPrefix : s.handed <+: s.dataQueue.pushed
  complete : Quiet s → s.handed = s.dataQueue.pushed

/-- A push finds its slot free, and a writer that is to start a transfer finds its own buffer at
the head of the queue. -/
def OwnHead (s : TxDma Thread) : TxEvent Thread → Prop
  | .write t item => SlotFree s.dataQueue (.push t item (-1))
  | .resume t => SlotFree s.dataQueue (.run t)
  | .test t => s.activated = false → ∀ item, s.phase t = .pushed item →
      (stored s.dataQueue).head? = some item
  | _ => True

/-! ## The queue -/

omit [DecidableEq Thread] in
theorem stored_congr {o : Observed Thread} {q : RtDataQueue Thread} (h : Same o.queue q)
    (asked : Thread → RtDataItem) : stored { o with queue := q, asked := asked } = stored o := by
  unfold stored
  dsimp only
  rw [h.count, h.position, h.queue]

/-- A thread whose push has not been done. -/
def Phase.Before (p : Phase) : Prop := p = .idle ∨ p = .pushing

theorem Phase.before_returned (item : Numbered) {result : Option Err} (h : result ≠ some .eok) :
    (Phase.returned item result).Before := by
  unfold Phase.returned
  split
  · exact .inr rfl
  · exact absurd rfl h
  · exact .inl rfl

/-- A push returns `RT_EOK` if it has stored the buffer, in a slot that was free; else it has
changed nothing but who waits. -/
inductive Outcome (q : RtDataQueue Thread) (item : RtDataItem)
    (result : RtDataQueue Thread × Option Err) : Prop where
  | nothing (ret : result.2 ≠ some .eok) (same : Same q result.1)
  | stored (ret : result.2 = some .eok) (room : q.difference ≠ q.size.toNat)
      (free : ∀ i < count q, position q i ≠ q.slot q.putIndex) (same : Same (q.store item) result.1)

theorem outcome_pushTurn {q q' : RtDataQueue Thread} {item : RtDataItem} (hq : Same q q')
    (hfree : q.difference ≠ q.size.toNat → ∀ i < count q, position q i ≠ q.slot q.putIndex)
    (t : Thread) (timeout : Int) : Outcome q item (q'.pushTurn t item timeout) := by
  obtain ⟨-, hret, hsame⟩ | ⟨hroom, hret, hsame⟩ := pushTurn_cases q' t item timeout
  · exact .nothing hret (hq.trans hsame)
  · rw [hq.difference, hq.size] at hroom
    exact .stored hret hroom (hfree hroom) ((hq.store item).trans hsame)

theorem outcome_pushAgain {o : Observed Thread} {item : RtDataItem} {t : Thread} {timeout : Int}
    (hcall : o.queue.call t = some (.push item timeout)) (hfree : SlotFree o (.run t)) :
    Outcome o.queue item (o.queue.pushAgain t item timeout) := by
  unfold RtDataQueue.pushAgain
  split
  · rename_i herr
    exact .nothing (fun h => herr (Option.some.inj h)) ⟨rfl, rfl, rfl, rfl⟩
  · rename_i herr
    have hpush : (o.queue.call t).map Call.side = some .push := by
      rw [hcall]
      rfl
    have hsame : Same o.queue (o.queue.runAgain t) := ⟨rfl, rfl, rfl, rfl⟩
    exact outcome_pushTurn hsame
      (fun hroom => hfree ⟨hpush, not_not.mp herr, hroom⟩) t timeout

omit [DecidableEq Thread] in
/-- What is stored behind a push. -/
theorem stored_afterStore {o : Observed Thread} (h : DataQueue.Inv o)
    (hroom : o.queue.difference ≠ o.queue.size.toNat)
    (hfree : ∀ i < count o.queue, position o.queue i ≠ o.queue.slot o.queue.putIndex)
    (item : RtDataItem) : stored (afterStore o item) = stored o ++ [(item, o.pushed.length)] := by
  have hfifo := (h.store hroom hfree item).fifo
  have hold : (afterStore o item).pushed = o.popped ++ (stored o ++ [(item, o.pushed.length)]) := by
    rw [← List.append_assoc, ← h.fifo]
    rfl
  exact (List.append_cancel_left (hold.symm.trans hfifo)).symm

omit [DecidableEq Thread] in
/-- A pop takes the head. -/
theorem stored_afterTake {o : Observed Thread} (h : DataQueue.Inv o)
    (hne : o.queue.getIndex ≠ o.queue.putIndex) :
    ∃ x, stored o = x :: stored (afterTake o) ∧ (afterTake o).popped = o.popped ++ [x] := by
  have hfifo : o.pushed = (o.popped ++ [_]) ++ stored (afterTake o) := (h.take hne).fifo
  rw [List.append_assoc, h.fifo] at hfifo
  exact ⟨_, List.append_cancel_left hfifo, rfl⟩

omit [DecidableEq Thread] in
theorem stored_eq_nil_iff {o : Observed Thread} :
    stored o = [] ↔ o.queue.getIndex = o.queue.putIndex := by
  rw [← List.length_eq_zero_iff, length_stored, count]
  bv_omega

omit [DecidableEq Thread] in
/-- A peak gives the head. -/
theorem peak_cases (o : Observed Thread) :
    (o.queue.peak = none ∧ stored o = []) ∨
    ∃ item rest, o.queue.peak = some item ∧
      stored o = (item, o.writer (o.queue.slot o.queue.getIndex)) :: rest := by
  unfold RtDataQueue.peak
  by_cases hempty : o.queue.getIndex = o.queue.putIndex
  · exact .inl ⟨if_pos hempty, stored_eq_nil_iff.mpr hempty⟩
  · obtain ⟨x, rest, hstored⟩ := List.exists_cons_of_ne_nil (mt stored_eq_nil_iff.mp hempty)
    have hlen : 0 < (stored o).length := by
      rw [hstored]
      exact Nat.succ_pos _
    have hzero : position o.queue 0 = o.queue.slot o.queue.getIndex :=
      congrArg o.queue.slot (BitVec.add_zero _)
    have hhead := getElem_stored o hlen
    simp only [hstored, List.getElem_cons_zero, hzero] at hhead
    exact .inr ⟨_, rest, if_neg hempty, by rw [hstored, hhead]⟩

/-! ## What every step keeps -/

/-- Nothing is sent, a writer is about to start, or a transfer is going on. -/
inductive Doing (s : TxDma Thread) : Prop where
  | rest (activated : s.activated = false) (busy : s.busy = false)
      (none : ∀ t item, s.phase t ≠ .starting item) (handed : s.handed = s.dataQueue.popped)
      (pending : ∀ item ∈ stored s.dataQueue, ∃ t, s.phase t = .pushed item)
  | start (t : Thread) (item : Numbered) (rest : List Numbered) (activated : s.activated = true)
      (busy : s.busy = false) (phase : s.phase t = .starting item)
      (only : ∀ t' item', s.phase t' = .starting item' → t' = t)
      (stored : stored s.dataQueue = item :: rest) (handed : s.handed = s.dataQueue.popped)
  | transfer (item : Numbered) (rest : List Numbered) (activated : s.activated = true)
      (busy : s.busy = true) (none : ∀ t item, s.phase t ≠ .starting item)
      (stored : stored s.dataQueue = item :: rest)
      (handed : s.handed = s.dataQueue.popped ++ [item])

structure Inv (s : TxDma Thread) : Prop where
  queue : DataQueue.Inv s.dataQueue
  asked : Asked s.dataQueue
  doing : Doing s

section
variable {s s' : TxDma Thread} {t : Thread}

theorem not_starting_of_update {phase : Thread → Phase} {u : Thread} {p : Phase} {item : Numbered}
    (hp : p ≠ .starting item) (hu : phase u ≠ .starting item) :
    Function.update phase t p u ≠ .starting item := by
  by_cases hut : u = t
  · subst hut
    rwa [Function.update_self]
  · rwa [Function.update_of_ne hut]

/-- What a thread that is not to start a transfer does while there is one, or is to be one. -/
theorem Doing.active {o : Observed Thread} {p : Phase} {l : List Numbered} (h : Doing s)
    (hactivated : s.activated = true) (hphase : ∀ item, s.phase t ≠ .starting item)
    (hp : ∀ item, p ≠ .starting item) (hpopped : o.popped = s.dataQueue.popped)
    (hstored : stored o = stored s.dataQueue ++ l) :
    Doing ({ s with dataQueue := o }.setPhase t p) := by
  cases h with
  | rest activated => exact absurd (activated.symm.trans hactivated) nofun
  | start u item rest activated busy phase only head handed =>
    have hut : u ≠ t := by
      rintro rfl
      exact hphase item phase
    refine .start u item (rest ++ l) activated busy ((Function.update_of_ne hut _ _).trans phase)
      (fun t' item' ht' => ?_) (hstored.trans (by rw [head, List.cons_append]))
      (handed.trans hpopped.symm)
    by_contra hne
    exact not_starting_of_update (hp item') (fun h => hne (only t' item' h)) ht'
  | transfer item rest activated busy none head handed =>
    exact .transfer item (rest ++ l) activated busy
      (fun u item => not_starting_of_update (hp item) (none u item))
      (hstored.trans (by rw [head, List.cons_append])) (by rw [← hpopped] at handed; exact handed)

/-- A thread pushes, or tries to. -/
theorem Doing.push {o : Observed Thread} {p : Phase} {l : List Numbered} (h : Doing s)
    (hphase : (s.phase t).Before) (hp : ∀ item, p ≠ .starting item)
    (hl : ∀ item ∈ l, p = .pushed item) (hpopped : o.popped = s.dataQueue.popped)
    (hstored : stored o = stored s.dataQueue ++ l) :
    Doing ({ s with dataQueue := o }.setPhase t p) := by
  have hbefore : ∀ item, s.phase t ≠ .starting item ∧ s.phase t ≠ .pushed item := fun item => by
    rcases hphase with h | h <;> rw [h] <;> exact ⟨nofun, nofun⟩
  by_cases hactivated : s.activated = true
  · exact h.active hactivated (fun item => (hbefore item).1) hp hpopped hstored
  · cases h with
    | start _ _ _ activated => exact absurd activated hactivated
    | transfer _ _ activated => exact absurd activated hactivated
    | rest activated busy none handed pending =>
      refine .rest activated busy (fun u item => not_starting_of_update (hp item) (none u item))
        (handed.trans hpopped.symm) fun item hitem => ?_
      change item ∈ stored o at hitem
      rw [hstored] at hitem
      rcases List.mem_append.mp hitem with hitem | hitem
      · obtain ⟨u, hu⟩ := pending item hitem
        have hut : u ≠ t := by
          rintro rfl
          exact (hbefore item).2 hu
        exact ⟨u, (Function.update_of_ne hut _ _).trans hu⟩
      · exact ⟨t, (Function.update_self _ _ _).trans (hl item hitem)⟩

theorem Inv.afterPush {item : RtDataItem} {result : RtDataQueue Thread × Option Err} (h : Inv s)
    (hphase : (s.phase t).Before) (hresult : Outcome s.dataQueue.queue item result)
    (hasked : Asked (s.dataQueue.pushing t item result)) : Inv (s.afterPush t item result) := by
  unfold Observed.pushing at hasked
  unfold TxDma.afterPush Observed.pushing
  cases hresult with
  | nothing ret same =>
    rw [if_neg ret] at hasked ⊢
    refine ⟨h.queue.congr same _, hasked,
      h.doing.push (l := []) hphase (fun item' heq => ?_) nofun rfl ?_⟩
    · have hbefore := Phase.before_returned (item, s.dataQueue.pushed.length) ret
      rw [heq] at hbefore
      rcases hbefore with h | h <;> cases h
    · rw [stored_congr same, List.append_nil]
  | stored ret room free same =>
    rw [if_pos ret] at hasked ⊢
    rw [ret]
    refine ⟨(h.queue.store room free item).congr same _, hasked,
      h.doing.push (l := [(item, s.dataQueue.pushed.length)]) hphase nofun ?_ rfl ?_⟩
    · intro item' hitem'
      rw [List.mem_singleton.mp hitem']
      rfl
    · exact (stored_congr (o := afterStore s.dataQueue item) same _).trans
        (stored_afterStore h.queue room free item)

/-- A thread that has nothing more to do. -/
theorem Doing.leave {item : Numbered} (h : Doing s) (hphase : s.phase t = .pushed item)
    (hactivated : s.activated = true) : Doing (s.setPhase t .idle) :=
  h.active (o := s.dataQueue) hactivated (fun item' => by rw [hphase]; nofun) nofun rfl
    (List.append_nil _).symm

theorem Inv.test {item : Numbered} (h : Inv s) (hphase : s.phase t = .pushed item)
    (hown : OwnHead s (.test t)) : Inv (s.test t item) := by
  unfold TxDma.test
  split
  · rename_i hactivated
    refine ⟨h.queue, h.asked, ?_⟩
    obtain ⟨rest, hhead⟩ := List.head?_eq_some_iff.mp (hown hactivated item hphase)
    cases h.doing with
    | rest activated busy none handed pending =>
      refine .start t item rest rfl busy (Function.update_self _ _ _) (fun u item' hu => ?_) hhead
        handed
      by_contra hut
      exact none u item' ((Function.update_of_ne hut _ _).symm.trans hu)
    | start u item' rest activated => exact absurd (activated.symm.trans hactivated) nofun
    | transfer item' rest activated => exact absurd (activated.symm.trans hactivated) nofun
  · rename_i hactivated
    exact ⟨h.queue, h.asked, h.doing.leave hphase (Bool.eq_true_of_not_eq_false hactivated)⟩

theorem Inv.start {item : Numbered} (h : Inv s) (hphase : s.phase t = .starting item) :
    Inv ((s.setPhase t .idle).dmaTransmit item) := by
  refine ⟨h.queue, h.asked, ?_⟩
  cases h.doing with
  | rest activated busy none => exact absurd hphase (none t item)
  | transfer item' rest activated busy none => exact absurd hphase (none t item)
  | start u item' rest activated busy phase only head handed =>
    obtain rfl := only t item hphase
    obtain rfl := Phase.starting.inj (phase.symm.trans hphase)
    refine .transfer item' rest activated rfl (fun t' item'' ht' => ?_) head
      (congrArg (· ++ [item']) handed)
    change Function.update s.phase t .idle t' = _ at ht'
    by_cases hne : t' = t
    · rw [hne, Function.update_self] at ht'
      cases ht'
    · rw [Function.update_of_ne hne] at ht'
      exact hne (only t' item'' ht')

theorem Inv.done (h : Inv s) (hbusy : s.busy = true) (t : Thread) : Inv (s.txDmaDone t) := by
  cases h.doing with
  | rest activated busy => exact absurd (busy.symm.trans hbusy) nofun
  | start u item rest activated busy => exact absurd (busy.symm.trans hbusy) nofun
  | transfer item rest activated busy none head handed =>
    have hne : s.dataQueue.queue.getIndex ≠ s.dataQueue.queue.putIndex := fun heq => by
      rw [stored_eq_nil_iff.mpr heq] at head
      cases head
    obtain ⟨hempty, -⟩ | ⟨-, q, hsame, hpop⟩ := popping_cases s.dataQueue (.refl _) t 0
    · exact absurd hempty hne
    · obtain ⟨x, hx, hpopped⟩ := stored_afterTake h.queue hne
      obtain ⟨rfl, hrest⟩ := List.cons.inj (head.symm.trans hx)
      have hstored : stored { afterTake s.dataQueue with queue := q } = rest :=
        (stored_congr hsame _).trans hrest.symm
      have hsent : s.handed = (afterTake s.dataQueue).popped := handed.trans hpopped.symm
      have hqueue : DataQueue.Inv { afterTake s.dataQueue with queue := q } :=
        (h.queue.take hne).congr hsame _
      have hasked : Asked { afterTake s.dataQueue with queue := q } :=
        hpop ▸ h.asked.popping rfl t 0
      unfold TxDma.txDmaDone
      rw [hpop]
      dsimp only
      obtain ⟨hpeak, hnil⟩ | ⟨next, rest', hpeak, hnext⟩ :=
        peak_cases { afterTake s.dataQueue with queue := q }
      · dsimp only at hpeak
        rw [hpeak]
        refine ⟨hqueue, hasked, .rest rfl rfl none hsent fun y hy => ?_⟩
        dsimp only at hy
        rw [hnil] at hy
        cases hy
      · dsimp only at hpeak
        rw [hpeak]
        exact ⟨hqueue, hasked, .transfer _ _ rfl rfl none hnext (congrArg (· ++ [_]) hsent)⟩

theorem Inv.step {e : TxEvent Thread} (h : Inv s) (hown : OwnHead s e)
    (hstep : step s e = some s') : Inv s' := by
  cases e with
  | write t item =>
    obtain ⟨⟨hidle, -⟩, heq⟩ := Option.ite_none_right_eq_some.mp hstep
    obtain rfl := Option.some.inj heq
    exact h.afterPush (.inl hidle) (outcome_pushTurn (.refl _) hown t (-1))
      (h.asked.pushing rfl t item (-1))
  | resume t =>
    unfold SerialDmaTx.step at hstep
    dsimp only at hstep
    split at hstep
    · rename_i item timeout hpushing hcall
      obtain ⟨-, heq⟩ := Option.ite_none_right_eq_some.mp hstep
      obtain rfl := Option.some.inj heq
      refine h.afterPush (.inr hpushing) ?_ (h.asked.pushAgain hcall)
      rw [h.asked t item timeout hcall]
      exact outcome_pushAgain hcall hown
    · cases hstep
  | test t =>
    unfold SerialDmaTx.step at hstep
    dsimp only at hstep
    split at hstep
    · rename_i item hpushed
      obtain rfl := Option.some.inj hstep
      exact h.test hpushed hown
    · cases hstep
  | start t =>
    unfold SerialDmaTx.step at hstep
    dsimp only at hstep
    split at hstep
    · rename_i item hstarting
      obtain rfl := Option.some.inj hstep
      exact h.start hstarting
    · cases hstep
  | done t =>
    obtain ⟨hbusy, heq⟩ := Option.ite_none_right_eq_some.mp hstep
    obtain rfl := Option.some.inj heq
    exact h.done hbusy t

omit [DecidableEq Thread] in
theorem Inv.inOrder (h : Inv s) : InOrder s := by
  have hfifo := h.queue.fifo
  cases h.doing with
  | rest activated busy none handed pending =>
    refine ⟨⟨_, by rw [handed, ← hfifo]⟩, fun hquiet => ?_⟩
    have hnil : stored s.dataQueue = [] := List.eq_nil_iff_forall_not_mem.mpr fun item hitem => by
      obtain ⟨t, ht⟩ := pending item hitem
      exact (hquiet.2 t item).1 ht
    rw [hfifo, hnil, List.append_nil, handed]
  | start t item rest activated busy phase only head handed =>
    refine ⟨⟨_, by rw [handed, ← hfifo]⟩, fun hquiet => ?_⟩
    exact absurd phase (hquiet.2 t item).2
  | transfer item rest activated busy none head handed =>
    refine ⟨⟨rest, ?_⟩, fun hquiet => absurd (hquiet.1.symm.trans busy) nofun⟩
    rw [handed, hfifo, head, List.append_assoc, List.singleton_append]

end

omit [DecidableEq Thread] in
theorem inv_start (queue : Nat → RtDataItem) (priority : Thread → Nat) :
    Inv (start queue priority) := by
  refine ⟨DataQueue.inv_start 8 4 queue priority, DataQueue.asked_start 8 4 queue priority,
    .rest rfl rfl (fun _ _ => nofun) rfl ?_⟩
  have hnil : stored (start queue priority).dataQueue = [] := stored_eq_nil_iff.mpr rfl
  rw [hnil]
  exact nofun

/-- Whoever writes, and whenever the interrupt comes. -/
theorem inOrder_throughout (queue : Nat → RtDataItem) (priority : Thread → Nat)
    (es : List (TxEvent Thread)) (h : Along step OwnHead (start queue priority) es) :
    Throughout step InOrder (start queue priority) es :=
  throughout_of_along (fun _ h => h.inOrder) (fun _ _ _ h hown hstep => h.step hown hstep)
    (inv_start queue priority) h

instance (o : Observed Thread) (e : DataQueue.Event Thread) : Decidable (Stores o e) :=
  match e with
  | .push _ _ _ => inferInstanceAs (Decidable (¬ _))
  | .run _ => inferInstanceAs (Decidable (_ ∧ _ ∧ _))
  | .pop _ _ | .peak _ | .timeout _ => inferInstanceAs (Decidable False)

instance (o : Observed Thread) (e : DataQueue.Event Thread) : Decidable (SlotFree o e) :=
  inferInstanceAs (Decidable (_ → ∀ i < count o.queue, _))

instance (s : TxDma Thread) : DecidablePred (OwnHead s)
  | .write t item => inferInstanceAs (Decidable (SlotFree s.dataQueue (.push t item (-1))))
  | .resume t => inferInstanceAs (Decidable (SlotFree s.dataQueue (.run t)))
  | .test t =>
    match hphase : s.phase t with
    | .pushed item =>
      decidable_of_iff (s.activated = false → (stored s.dataQueue).head? = some item)
        ⟨fun h hactivated item' hitem => by
          cases hphase.symm.trans hitem
          exact h hactivated, fun h hactivated => h hactivated item hphase⟩
    | .idle | .pushing | .starting _ =>
      isTrue fun _ item hitem => by cases hphase.symm.trans hitem
  | .start _ | .done _ => isTrue trivial

/-- Two writers; the second pushes while the buffer of the first is being sent. -/
theorem inOrder_throughout_two :
    Throughout step InOrder (start (fun _ => ⟨0, 0⟩) fun _ : Bool => 0)
      [.write false ⟨0x20000000, 4⟩, .test false, .start false, .write true ⟨0x20000010, 8⟩,
        .test true, .done false, .done false] :=
  inOrder_throughout _ _ _ (by decide)

/-- Two writers push, and the second is the first to see that no transfer is going on. -/
theorem second_writer_first :
    ¬Throughout step InOrder (start (fun _ => ⟨0, 0⟩) fun _ : Bool => 0)
      [.write false ⟨0x20000000, 4⟩, .write true ⟨0x20000010, 4⟩, .test true, .start true] := by
  intro h
  have hrun : ((run step (start (fun _ => ⟨0, 0⟩) fun _ : Bool => 0)
      [.write false ⟨0x20000000, 4⟩, .write true ⟨0x20000010, 4⟩, .test true, .start true]).map
      fun s => (s.handed, s.dataQueue.pushed)) =
      some ([(⟨0x20000010, 4⟩, 1)], [(⟨0x20000000, 4⟩, 0), (⟨0x20000010, 4⟩, 1)]) := by decide
  obtain ⟨s, hs, heq⟩ := Option.map_eq_some_iff.mp hrun
  obtain ⟨hhanded, hpushed⟩ := Prod.mk.inj heq
  have hprefix := (h.last hs).isPrefix
  rw [hhanded, hpushed] at hprefix
  exact absurd hprefix (by decide)

end ControlRTT.Drivers.SerialDmaTx

import ControlRTT.Lib.Runs
import ControlRTT.Kernel.WaitLists
import Mathlib.Data.List.Nodup
import Mathlib.Data.List.Perm.Subperm

/-! # Data queues (dataqueue.c)

Items in an array, between two 16-bit indices that run freely and are taken modulo the size.
Whether the queue is full is asked of their difference as an `int`, which is negative once
`put_index` has wrapped and `get_index` has not: a push may then overwrite an item, and the
queue is a FIFO exactly if none does (`fifo_throughout_iff`). -/
namespace ControlRTT.Drivers.DataQueue
open ControlRTT.Lib.Runs ControlRTT.Kernel.Thread

structure RtDataItem where
  dataPtr : BitVec 32
  dataSize : BitVec 32
  deriving DecidableEq, Repr

/-- `suspended_push_list` and `suspended_pop_list`. -/
inductive Side where
  | push
  | pop
  deriving DecidableEq, Repr

/-- A call that waits. -/
inductive Call where
  | push (item : RtDataItem) (timeout : Int)
  | pop (timeout : Int)

def Call.side : Call → Side
  | .push _ _ => .push
  | .pop _ => .pop

def Call.timeout : Call → Int
  | .push _ timeout => timeout
  | .pop timeout => timeout

structure RtDataQueue (Thread : Type) where
  size : BitVec 16
  lwm : BitVec 16
  getIndex : BitVec 16 := 0
  putIndex : BitVec 16 := 0
  queue : Nat → RtDataItem
  lists : WaitLists Side Thread
  call : Thread → Option Call := fun _ => none

variable {Thread : Type} [DecidableEq Thread]

namespace RtDataQueue

/-- `put_index - get_index`: both are promoted to `int`. -/
def difference (q : RtDataQueue Thread) : Int := (q.putIndex.toNat : Int) - q.getIndex.toNat

def slot (q : RtDataQueue Thread) (index : BitVec 16) : Nat := index.toNat % q.size.toNat

def setError (q : RtDataQueue Thread) (t : Thread) (e : Err) : RtDataQueue Thread :=
  { q with lists := q.lists.setError t e }

/-- The call goes to the list of its side, up to `rt_schedule`. -/
def wait (q : RtDataQueue Thread) (t : Thread) (c : Call) : RtDataQueue Thread :=
  { q with
    call := Function.update q.call t (some c)
    lists := (q.lists.rtIpcListSuspend c.side .fifo t).startTimer t c.timeout }

def wake (q : RtDataQueue Thread) (side : Side) : RtDataQueue Thread :=
  { q with lists := q.lists.rtIpcListResume side }

def store (q : RtDataQueue Thread) (item : RtDataItem) : RtDataQueue Thread :=
  { q with
    queue := Function.update q.queue (q.slot q.putIndex) item
    putIndex := q.putIndex + 1 }

def take (q : RtDataQueue Thread) : RtDataQueue Thread := { q with getIndex := q.getIndex + 1 }

/-- A turn of the loop, and what follows the loop; `none` is up to `rt_schedule`. The
notifications call a function of the user and change nothing here. -/
def pushTurn (q : RtDataQueue Thread) (t : Thread) (item : RtDataItem) (timeout : Int) :
    RtDataQueue Thread × Option Err :=
  if q.difference = q.size.toNat then
    if timeout = 0 then (q, some .etimeout)
    else ((q.setError t .eok).wait t (.push item timeout), none)
  else ((q.store item).wake .pop, some .eok)

def popTurn (q : RtDataQueue Thread) (t : Thread) (timeout : Int) :
    RtDataQueue Thread × Option (Except Err RtDataItem) :=
  if q.getIndex = q.putIndex then
    if timeout = 0 then (q, some (.error .etimeout))
    else ((q.setError t .eok).wait t (.pop timeout), none)
  else
    (if q.take.difference ≤ q.lwm.toNat then q.take.wake .push else q.take,
      some (.ok (q.queue (q.slot q.getIndex))))

/-- `rt_data_queue_peak`; `none` is `-RT_EEMPTY`. -/
def peak (q : RtDataQueue Thread) : Option RtDataItem :=
  if q.getIndex = q.putIndex then none else some (q.queue (q.slot q.getIndex))

def runAgain (q : RtDataQueue Thread) (t : Thread) : RtDataQueue Thread :=
  { q with lists := q.lists.runAgain t }

/-- A push comes back from `rt_schedule`. -/
def pushAgain (q : RtDataQueue Thread) (t : Thread) (item : RtDataItem) (timeout : Int) :
    RtDataQueue Thread × Option Err :=
  if (q.lists.tcb t).error ≠ .eok then (q.runAgain t, some (q.lists.tcb t).error)
  else (q.runAgain t).pushTurn t item timeout

def popAgain (q : RtDataQueue Thread) (t : Thread) (timeout : Int) :
    RtDataQueue Thread × Option (Except Err RtDataItem) :=
  if (q.lists.tcb t).error ≠ .eok then (q.runAgain t, some (.error (q.lists.tcb t).error))
  else (q.runAgain t).popTurn t timeout

end RtDataQueue

inductive Event (Thread : Type) where
  | push (t : Thread) (item : RtDataItem) (timeout : Int)
  | pop (t : Thread) (timeout : Int)
  | peak (t : Thread)
  | timeout (t : Thread)
  | run (t : Thread)

/-- An item with the number of the push that it is from. -/
abbrev Numbered := RtDataItem × Nat

/-- A queue, with the items of the pushes and pops that have returned `RT_EOK`, in their order.
`writer` has the number of the push that wrote a slot last, and `asked` the item that a thread
called its push with when it has to wait. -/
structure Observed (Thread : Type) where
  queue : RtDataQueue Thread
  writer : Nat → Nat := fun _ => 0
  asked : Thread → RtDataItem := fun _ => ⟨0, 0⟩
  pushed : List Numbered := []
  popped : List Numbered := []

namespace Observed

/-- A push of `item` by `t`, or a part of it. -/
def pushing (o : Observed Thread) (t : Thread) (item : RtDataItem)
    (result : RtDataQueue Thread × Option Err) : Observed Thread :=
  if result.2 = some .eok then
    { o with
      queue := result.1
      writer := Function.update o.writer (o.queue.slot o.queue.putIndex) o.pushed.length
      pushed := o.pushed ++ [(item, o.pushed.length)] }
  else
    { o with
      queue := result.1
      asked := if result.2 = none then Function.update o.asked t item else o.asked }

def popping (o : Observed Thread)
    (result : RtDataQueue Thread × Option (Except Err RtDataItem)) : Observed Thread :=
  match result.2 with
  | some (.ok item) =>
    { o with
      queue := result.1
      popped := o.popped ++ [(item, o.writer (o.queue.slot o.queue.getIndex))] }
  | _ => { o with queue := result.1 }

end Observed

/-- Only a running thread may wait, only a started timer fires, and only a resumed thread
comes back from `rt_schedule`. An interrupt handler may call with no waiting time. -/
def step (o : Observed Thread) : Event Thread → Option (Observed Thread)
  | .push t item timeout =>
    if timeout = 0 ∨ o.queue.lists.Running t then
      some (o.pushing t item (o.queue.pushTurn t item timeout))
    else none
  | .pop t timeout =>
    if timeout = 0 ∨ o.queue.lists.Running t then
      some (o.popping (o.queue.popTurn t timeout))
    else none
  | .peak _ => some o
  | .timeout t =>
    if (o.queue.lists.tcb t).timer then
      some { o with queue :=
        { o.queue with lists := o.queue.lists.rtThreadTimeout t } }
    else none
  | .run t =>
    if t ∈ o.queue.lists.resumed then
      match o.queue.call t with
      | some (.push item timeout) =>
        some (o.pushing t (o.asked t) (o.queue.pushAgain t item timeout))
      | some (.pop timeout) => some (o.popping (o.queue.popAgain t timeout))
      | none => none
    else none

/-- `rt_data_queue_init`. -/
def start (size lwm : BitVec 16) (queue : Nat → RtDataItem) (priority : Thread → Nat) :
    Observed Thread where
  queue := {
    size := size
    lwm := lwm
    queue := queue
    lists := WaitLists.idle priority }

/-- The number of stored items, by the distance of the indices. -/
def count (q : RtDataQueue Thread) : Nat := (q.putIndex - q.getIndex).toNat

/-- The slot of the `i`th stored item. -/
def position (q : RtDataQueue Thread) (i : Nat) : Nat := q.slot (q.getIndex + BitVec.ofNat 16 i)

/-- What is in the slots from `get_index` to `put_index`, with the pushes it is from. -/
def stored (o : Observed Thread) : List Numbered :=
  (List.range (count o.queue)).map fun i =>
    (o.queue.queue (position o.queue i), o.writer (position o.queue i))

/-- The items that have been pushed have been popped or are stored, each once and in its
order, and there is room for what is stored. -/
structure Fifo (o : Observed Thread) : Prop where
  fifo : o.pushed = o.popped ++ stored o
  count_le : count o.queue ≤ o.queue.size.toNat

/-- A push is about to store. -/
def Stores (o : Observed Thread) : Event Thread → Prop
  | .push _ _ _ => o.queue.difference ≠ o.queue.size.toNat
  | .run t =>
    (o.queue.call t).map Call.side = some .push ∧ (o.queue.lists.tcb t).error = .eok ∧
      o.queue.difference ≠ o.queue.size.toNat
  | _ => False

/-- A push stores to a slot that no stored item is in. -/
def SlotFree (o : Observed Thread) (e : Event Thread) : Prop :=
  Stores o e → ∀ i < count o.queue, position o.queue i ≠ o.queue.slot o.queue.putIndex

/-! ## The array -/

omit [DecidableEq Thread] in
theorem position_count (q : RtDataQueue Thread) : position q (count q) = q.slot q.putIndex := by
  unfold position count
  rw [BitVec.ofNat_toNat, BitVec.setWidth_eq, BitVec.add_comm, BitVec.sub_add_cancel]

omit [DecidableEq Thread] in
theorem length_stored (o : Observed Thread) : (stored o).length = count o.queue := by
  rw [stored, List.length_map, List.length_range]

omit [DecidableEq Thread] in
theorem getElem_stored (o : Observed Thread) {i : Nat} (hi : i < (stored o).length) :
    (stored o)[i] = (o.queue.queue (position o.queue i), o.writer (position o.queue i)) := by
  simp only [stored, List.getElem_map, List.getElem_range]

omit [DecidableEq Thread] in
theorem count_take {q : RtDataQueue Thread} (h : q.getIndex ≠ q.putIndex) :
    count q = count q.take + 1 := by
  change (q.putIndex - q.getIndex).toNat = (q.putIndex - (q.getIndex + 1)).toNat + 1
  bv_omega

omit [DecidableEq Thread] in
theorem position_take (q : RtDataQueue Thread) (i : Nat) :
    position q.take i = position q (i + 1) := by
  change q.slot (q.getIndex + 1 + BitVec.ofNat 16 i) = q.slot (q.getIndex + BitVec.ofNat 16 (i + 1))
  rw [BitVec.add_assoc, Nat.add_comm i 1, BitVec.ofNat_add]
  rfl

omit [DecidableEq Thread] in
theorem count_store {q : RtDataQueue Thread} (item : RtDataItem) (h : count q < 65535) :
    count (q.store item) = count q + 1 := by
  unfold count at h ⊢
  change (q.putIndex + 1 - q.getIndex).toNat = (q.putIndex - q.getIndex).toNat + 1
  bv_omega

/-- Two queues with the same indices and the same array. -/
structure Same (q q' : RtDataQueue Thread) : Prop where
  size : q'.size = q.size
  getIndex : q'.getIndex = q.getIndex
  putIndex : q'.putIndex = q.putIndex
  queue : q'.queue = q.queue

namespace Same
variable {q q' : RtDataQueue Thread}

omit [DecidableEq Thread] in
theorem slot (h : Same q q') : q'.slot = q.slot := by
  funext index
  rw [RtDataQueue.slot, RtDataQueue.slot, h.size]

omit [DecidableEq Thread] in
theorem count (h : Same q q') : count q' = count q := by
  rw [DataQueue.count, DataQueue.count, h.getIndex, h.putIndex]

omit [DecidableEq Thread] in
theorem position (h : Same q q') : position q' = position q := by
  funext i
  rw [DataQueue.position, DataQueue.position, h.slot, h.getIndex]

omit [DecidableEq Thread] in
theorem difference (h : Same q q') : q'.difference = q.difference := by
  rw [RtDataQueue.difference, RtDataQueue.difference, h.getIndex, h.putIndex]

omit [DecidableEq Thread] in
theorem store (h : Same q q') (item : RtDataItem) : Same (q.store item) (q'.store item) := by
  refine ⟨h.size, h.getIndex, congrArg (· + 1) h.putIndex, ?_⟩
  unfold RtDataQueue.store
  dsimp only
  rw [h.slot, h.putIndex, h.queue]

omit [DecidableEq Thread] in
theorem take (h : Same q q') : Same q.take q'.take :=
  ⟨h.size, congrArg (· + 1) h.getIndex, h.putIndex, h.queue⟩

omit [DecidableEq Thread] in
theorem refl (q : RtDataQueue Thread) : Same q q := ⟨rfl, rfl, rfl, rfl⟩

omit [DecidableEq Thread] in
theorem trans {q'' : RtDataQueue Thread} (h : Same q q') (h' : Same q' q'') : Same q q'' :=
  ⟨h'.size.trans h.size, h'.getIndex.trans h.getIndex, h'.putIndex.trans h.putIndex,
    h'.queue.trans h.queue⟩

end Same

/-- A push stores, or it leaves the array alone and does not return `RT_EOK`. -/
theorem pushTurn_cases (q : RtDataQueue Thread) (t : Thread) (item : RtDataItem)
    (timeout : Int) :
    (q.difference = q.size.toNat ∧ (q.pushTurn t item timeout).2 ≠ some .eok ∧
      Same q (q.pushTurn t item timeout).1) ∨
    (q.difference ≠ q.size.toNat ∧ (q.pushTurn t item timeout).2 = some .eok ∧
      Same (q.store item) (q.pushTurn t item timeout).1) := by
  unfold RtDataQueue.pushTurn
  split
  · rename_i hfull
    split
    · exact .inl ⟨hfull, nofun, rfl, rfl, rfl, rfl⟩
    · exact .inl ⟨hfull, nofun, rfl, rfl, rfl, rfl⟩
  · rename_i hroom
    exact .inr ⟨hroom, rfl, rfl, rfl, rfl, rfl⟩

/-- A pop takes the first item, or it leaves the array alone and returns none. -/
theorem popTurn_cases (q : RtDataQueue Thread) (t : Thread) (timeout : Int) :
    (q.getIndex = q.putIndex ∧ (∀ item, (q.popTurn t timeout).2 ≠ some (.ok item)) ∧
      Same q (q.popTurn t timeout).1) ∨
    (q.getIndex ≠ q.putIndex ∧
      (q.popTurn t timeout).2 = some (.ok (q.queue (q.slot q.getIndex))) ∧
      Same q.take (q.popTurn t timeout).1) := by
  unfold RtDataQueue.popTurn
  split
  · rename_i hempty
    split
    · exact .inl ⟨hempty, nofun, rfl, rfl, rfl, rfl⟩
    · exact .inl ⟨hempty, nofun, rfl, rfl, rfl, rfl⟩
  · rename_i hitem
    refine .inr ⟨hitem, rfl, ?_⟩
    split
    · exact ⟨rfl, rfl, rfl, rfl⟩
    · exact ⟨rfl, rfl, rfl, rfl⟩

/-! ## What every step keeps -/

/-- What `Observed.pushing` makes of a push that has stored. -/
def afterStore (o : Observed Thread) (item : RtDataItem) : Observed Thread where
  queue := o.queue.store item
  writer := Function.update o.writer (o.queue.slot o.queue.putIndex) o.pushed.length
  asked := o.asked
  pushed := o.pushed ++ [(item, o.pushed.length)]
  popped := o.popped

/-- What `Observed.popping` makes of a pop that has taken an item. -/
def afterTake (o : Observed Thread) : Observed Thread where
  queue := o.queue.take
  writer := o.writer
  asked := o.asked
  pushed := o.pushed
  popped := o.popped ++ [(o.queue.queue (o.queue.slot o.queue.getIndex),
    o.writer (o.queue.slot o.queue.getIndex))]

/-- Next to the FIFO, the numbers of the pushes. -/
structure Inv (o : Observed Thread) : Prop extends Fifo o where
  numbered : ∀ k (h : k < o.pushed.length), (o.pushed[k]).2 = k

namespace Inv
variable {o : Observed Thread}

omit [DecidableEq Thread]

theorem length_pushed (h : Inv o) : o.pushed.length = o.popped.length + count o.queue := by
  rw [h.fifo, List.length_append, length_stored]

/-- A stored item is from the push whose turn it is. -/
theorem writer_eq (h : Inv o) {i : Nat} (hi : i < count o.queue) :
    o.writer (position o.queue i) = o.popped.length + i := by
  have hlen := h.length_pushed
  have hk : o.popped.length + i < o.pushed.length := by omega
  have hi' : i < (stored o).length := (length_stored o).symm ▸ hi
  have hget : o.pushed[o.popped.length + i]? = (stored o)[i]? := by
    rw [h.fifo, List.getElem?_append_right (Nat.le_add_right _ _), Nat.add_sub_cancel_left]
  rw [List.getElem?_eq_getElem hk, List.getElem?_eq_getElem hi', getElem_stored o hi'] at hget
  rw [← h.numbered _ hk, Option.some.inj hget]

/-- Where no push overwrites, there is room for what it stores. -/
theorem count_lt (h : Inv o) (hfull : o.queue.difference ≠ o.queue.size.toNat)
    (hfree : ∀ i < count o.queue, position o.queue i ≠ o.queue.slot o.queue.putIndex) :
    count o.queue < o.queue.size.toNat := by
  have hpos : 0 < o.queue.size.toNat := by
    by_contra hzero
    have hle := h.count_le
    unfold count at hle
    unfold RtDataQueue.difference at hfull
    have heq : o.queue.putIndex = o.queue.getIndex := by bv_omega
    rw [heq] at hfull
    omega
  have hslot : ∀ index, o.queue.slot index < o.queue.size.toNat := fun index =>
    Nat.mod_lt _ hpos
  have hnodup : ((List.range (count o.queue + 1)).map (position o.queue)).Nodup := by
    rw [List.range_succ, List.map_append, List.map_singleton, position_count, List.nodup_append]
    refine ⟨?_, List.pairwise_singleton _ _, fun p hp p' hp' => ?_⟩
    · refine List.Nodup.map_on (fun i hi j hj hij => ?_) List.nodup_range
      have hwi := h.writer_eq (List.mem_range.mp hi)
      have hwj := h.writer_eq (List.mem_range.mp hj)
      rw [hij] at hwi
      omega
    · obtain ⟨i, hi, rfl⟩ := List.mem_map.mp hp
      rw [List.mem_singleton.mp hp']
      exact hfree i (List.mem_range.mp hi)
  have hsub : (List.range (count o.queue + 1)).map (position o.queue) ⊆
      List.range o.queue.size.toNat := by
    intro p hp
    obtain ⟨i, -, rfl⟩ := List.mem_map.mp hp
    exact List.mem_range.mpr (hslot _)
  have hle := (hnodup.subperm hsub).length_le
  rw [List.length_map, List.length_range, List.length_range] at hle
  exact hle

theorem congr (h : Inv o) {q : RtDataQueue Thread} (hq : Same o.queue q)
    (asked : Thread → RtDataItem) : Inv { o with queue := q, asked := asked } := by
  refine ⟨⟨?_, ?_⟩, h.numbered⟩
  · refine h.fifo.trans (congrArg (o.popped ++ ·) ?_)
    unfold stored
    dsimp only
    rw [hq.count, hq.position, hq.queue]
  · dsimp only
    rw [hq.count, hq.size]
    exact h.count_le

/-- The item and the number of its push go to the slot at `put_index`. -/
theorem store (h : Inv o) (hfull : o.queue.difference ≠ o.queue.size.toNat)
    (hfree : ∀ i < count o.queue, position o.queue i ≠ o.queue.slot o.queue.putIndex)
    (item : RtDataItem) : Inv (afterStore o item) := by
  have hlt := h.count_lt hfull hfree
  have hcount : count (o.queue.store item) = count o.queue + 1 :=
    count_store item (by have := o.queue.size.isLt; omega)
  refine ⟨⟨?_, ?_⟩, fun k hk => ?_⟩
  · unfold stored afterStore
    dsimp only
    rw [hcount, List.range_succ, List.map_append, List.map_singleton, ← List.append_assoc]
    refine congrArg₂ (· ++ ·) (h.fifo.trans (congrArg (o.popped ++ ·) ?_)) ?_
    · refine List.map_congr_left fun i hi => ?_
      have hne := hfree i (List.mem_range.mp hi)
      have hpos : position (o.queue.store item) i = position o.queue i := rfl
      rw [hpos, Function.update_of_ne hne]
      exact congrArg (·, _) (Function.update_of_ne hne _ _).symm
    · have hpos : position (o.queue.store item) (count o.queue) =
          o.queue.slot o.queue.putIndex := position_count o.queue
      have hitem : (o.queue.store item).queue (o.queue.slot o.queue.putIndex) = item :=
        Function.update_self _ _ _
      rw [hpos, hitem, Function.update_self]
  · exact hcount.trans_le hlt
  · change k < (o.pushed ++ [(item, o.pushed.length)]).length at hk
    change (o.pushed ++ [(item, o.pushed.length)])[k].2 = k
    rw [List.getElem_append]
    split
    · exact h.numbered k _
    · rw [List.length_append, List.length_singleton] at hk
      rw [List.getElem_singleton]
      dsimp only
      omega

/-- An item that is overwritten is lost. -/
theorem not_store (h : Inv o) {i : Nat} (hi : i < count o.queue)
    (htaken : position o.queue i = o.queue.slot o.queue.putIndex) (item : RtDataItem) :
    ¬ Fifo (afterStore o item) := fun hfifo => by
  have hlen := h.length_pushed
  have hk : o.popped.length + i < o.pushed.length := by omega
  have hlist : o.pushed ++ [(item, o.pushed.length)] = o.popped ++ stored (afterStore o item) :=
    hfifo.fifo
  have hcount : i < (stored (afterStore o item)).length := by
    have := congrArg List.length hlist
    rw [List.length_append, List.length_append, List.length_singleton] at this
    omega
  have hget : (o.pushed ++ [(item, o.pushed.length)])[o.popped.length + i]? =
      (stored (afterStore o item))[i]? := by
    rw [hlist, List.getElem?_append_right (Nat.le_add_right _ _), Nat.add_sub_cancel_left]
  rw [List.getElem?_append_left hk, List.getElem?_eq_getElem hk,
    List.getElem?_eq_getElem hcount, getElem_stored _ hcount] at hget
  -- the slot has the number of the new push
  have hwriter : (afterStore o item).writer (position (afterStore o item).queue i) =
      o.pushed.length := by
    change Function.update o.writer _ _ (position o.queue i) = _
    rw [htaken, Function.update_self]
  have hnumber := congrArg Prod.snd (Option.some.inj hget)
  rw [h.numbered _ hk, hwriter] at hnumber
  omega

theorem take (h : Inv o) (hne : o.queue.getIndex ≠ o.queue.putIndex) : Inv (afterTake o) := by
  have hcount := count_take hne
  have hzero : position o.queue 0 = o.queue.slot o.queue.getIndex :=
    congrArg o.queue.slot (BitVec.add_zero _)
  refine ⟨⟨?_, ?_⟩, h.numbered⟩
  · refine h.fifo.trans ?_
    unfold afterTake
    dsimp only
    rw [List.append_assoc]
    refine congrArg (o.popped ++ ·) ?_
    unfold stored
    dsimp only
    rw [hcount, List.range_succ_eq_map, List.map_cons, List.map_map, hzero]
    refine congrArg (_ :: ·) (List.map_congr_left fun i _ => ?_)
    rw [Function.comp_apply, position_take]
    rfl
  · have := h.count_le
    change count o.queue.take ≤ o.queue.size.toNat
    omega

end Inv

/-! ## Steps -/

theorem pushing_cases (o : Observed Thread) {q : RtDataQueue Thread} (hq : Same o.queue q)
    (t : Thread) (item : RtDataItem) (timeout : Int) :
    (o.queue.difference = o.queue.size.toNat ∧ ∃ q' asked, Same o.queue q' ∧
      o.pushing t item (q.pushTurn t item timeout) = { o with queue := q', asked := asked }) ∨
    (o.queue.difference ≠ o.queue.size.toNat ∧ ∃ q', Same (o.queue.store item) q' ∧
      o.pushing t item (q.pushTurn t item timeout) = { afterStore o item with queue := q' }) := by
  unfold Observed.pushing
  rw [← hq.difference, ← hq.size]
  obtain ⟨hfull, hret, hsame⟩ | ⟨hroom, hret, hsame⟩ := pushTurn_cases q t item timeout
  · refine .inl ⟨hfull, _, _, hq.trans hsame, if_neg hret⟩
  · refine .inr ⟨hroom, _, (hq.store item).trans hsame, if_pos hret⟩

theorem popping_cases (o : Observed Thread) {q : RtDataQueue Thread} (hq : Same o.queue q)
    (t : Thread) (timeout : Int) :
    (o.queue.getIndex = o.queue.putIndex ∧ ∃ q', Same o.queue q' ∧
      o.popping (q.popTurn t timeout) = { o with queue := q' }) ∨
    (o.queue.getIndex ≠ o.queue.putIndex ∧ ∃ q', Same o.queue.take q' ∧
      o.popping (q.popTurn t timeout) = { afterTake o with queue := q' }) := by
  unfold Observed.popping
  obtain ⟨hempty, hret, hsame⟩ | ⟨hne, hret, hsame⟩ := popTurn_cases q t timeout
  · rw [hq.getIndex, hq.putIndex] at hempty
    refine .inl ⟨hempty, _, hq.trans hsame, ?_⟩
    split
    · rename_i item heq
      exact absurd heq (hret item)
    · rfl
  · rw [hq.getIndex, hq.putIndex] at hne
    refine .inr ⟨hne, _, hq.take.trans hsame, ?_⟩
    rw [hret, hq.getIndex, hq.slot, hq.queue]
    rfl

/-- A push that waits will store what it was called with. -/
def Asked (o : Observed Thread) : Prop :=
  ∀ t item timeout, o.queue.call t = some (.push item timeout) → o.asked t = item

namespace Asked
variable {o o' : Observed Thread}

theorem pushing (h : Asked o) {q : RtDataQueue Thread} (hq : q.call = o.queue.call) (t : Thread)
    (item : RtDataItem) (timeout : Int) :
    Asked (o.pushing t item (q.pushTurn t item timeout)) := by
  unfold Observed.pushing RtDataQueue.pushTurn
  by_cases hfull : q.difference = q.size.toNat
  · rw [if_pos hfull]
    by_cases hnow : timeout = 0
    · rw [if_pos hnow]
      intro u item' timeout' hcall
      exact h u item' timeout' (hq ▸ hcall)
    · rw [if_neg hnow]
      intro u item' timeout' hcall
      change Function.update q.call t (some (.push item timeout)) u = _ at hcall
      change Function.update o.asked t item u = item'
      by_cases hut : u = t
      · subst hut
        rw [Function.update_self] at hcall ⊢
        exact (Call.push.inj (Option.some.inj hcall)).1
      · rw [Function.update_of_ne hut] at hcall ⊢
        exact h u item' timeout' (hq ▸ hcall)
  · rw [if_neg hfull]
    intro u item' timeout' hcall
    exact h u item' timeout' (hq ▸ hcall)

theorem popping (h : Asked o) {q : RtDataQueue Thread} (hq : q.call = o.queue.call) (t : Thread)
    (timeout : Int) : Asked (o.popping (q.popTurn t timeout)) := by
  unfold Observed.popping RtDataQueue.popTurn
  by_cases hempty : q.getIndex = q.putIndex
  · rw [if_pos hempty]
    by_cases hnow : timeout = 0
    · rw [if_pos hnow]
      intro u item' timeout' hcall
      exact h u item' timeout' (hq ▸ hcall)
    · rw [if_neg hnow]
      intro u item' timeout' hcall
      change Function.update q.call t (some (.pop timeout)) u = _ at hcall
      by_cases hut : u = t
      · subst hut
        rw [Function.update_self] at hcall
        cases hcall
      · rw [Function.update_of_ne hut] at hcall
        exact h u item' timeout' (hq ▸ hcall)
  · rw [if_neg hempty]
    intro u item' timeout' hcall
    refine h u item' timeout' (hq ▸ ?_)
    dsimp only at hcall
    split at hcall <;> exact hcall

theorem pushAgain (h : Asked o) {t : Thread} {item : RtDataItem} {timeout : Int}
    (hcall : o.queue.call t = some (.push item timeout)) :
    Asked (o.pushing t (o.asked t) (o.queue.pushAgain t item timeout)) := by
  rw [h t item timeout hcall]
  unfold RtDataQueue.pushAgain
  split
  · rename_i herr
    intro u item' timeout' hcall'
    unfold Observed.pushing at hcall' ⊢
    rw [if_neg fun heq => herr (Option.some.inj heq)] at hcall' ⊢
    exact h u item' timeout' hcall'
  · exact h.pushing (q := o.queue.runAgain t) rfl t item timeout

theorem step {e : Event Thread} (h : Asked o) (hstep : step o e = some o') : Asked o' := by
  cases e with
  | push t item timeout =>
    obtain ⟨-, heq⟩ := Option.ite_none_right_eq_some.mp hstep
    obtain rfl := Option.some.inj heq
    exact h.pushing rfl t item timeout
  | pop t timeout =>
    obtain ⟨-, heq⟩ := Option.ite_none_right_eq_some.mp hstep
    obtain rfl := Option.some.inj heq
    exact h.popping rfl t timeout
  | peak t =>
    obtain rfl := Option.some.inj hstep
    exact h
  | timeout t =>
    obtain ⟨-, heq⟩ := Option.ite_none_right_eq_some.mp hstep
    obtain rfl := Option.some.inj heq
    exact h
  | run t =>
    obtain ⟨-, heq⟩ := Option.ite_none_right_eq_some.mp hstep
    cases hcall : o.queue.call t with
    | none =>
      rw [hcall] at heq
      cases heq
    | some c =>
      rw [hcall] at heq
      cases c with
      | push item timeout =>
        obtain rfl := Option.some.inj heq
        exact h.pushAgain hcall
      | pop timeout =>
        obtain rfl := Option.some.inj heq
        unfold RtDataQueue.popAgain
        split
        · exact h
        · exact h.popping (q := o.queue.runAgain t) rfl t timeout

end Asked

/-- What a step does to the array and to the record. -/
theorem step_cases {o o' : Observed Thread} {e : Event Thread} (hasked : Asked o)
    (hstep : step o e = some o') :
    (¬ Stores o e ∧ ∃ q asked, Same o.queue q ∧ o' = { o with queue := q, asked := asked }) ∨
    (Stores o e ∧ o.queue.difference ≠ o.queue.size.toNat ∧ ∃ item q,
      Same (o.queue.store item) q ∧ o' = { afterStore o item with queue := q }) ∨
    (¬ Stores o e ∧ o.queue.getIndex ≠ o.queue.putIndex ∧ ∃ q,
      Same o.queue.take q ∧ o' = { afterTake o with queue := q }) := by
  cases e with
  | push t item timeout =>
    obtain ⟨-, heq⟩ := Option.ite_none_right_eq_some.mp hstep
    obtain rfl := Option.some.inj heq
    obtain ⟨hfull, q', asked, hsame, h⟩ | ⟨hroom, q', hsame, h⟩ :=
      pushing_cases o (.refl o.queue) t item timeout
    · exact .inl ⟨fun hs => hs hfull, q', asked, hsame, h⟩
    · exact .inr (.inl ⟨hroom, hroom, item, q', hsame, h⟩)
  | pop t timeout =>
    obtain ⟨-, heq⟩ := Option.ite_none_right_eq_some.mp hstep
    obtain rfl := Option.some.inj heq
    obtain ⟨-, q', hsame, h⟩ | ⟨hne, q', hsame, h⟩ :=
      popping_cases o (.refl o.queue) t timeout
    · exact .inl ⟨id, q', o.asked, hsame, h⟩
    · exact .inr (.inr ⟨id, hne, q', hsame, h⟩)
  | peak t =>
    obtain rfl := Option.some.inj hstep
    exact .inl ⟨id, o.queue, o.asked, .refl _, rfl⟩
  | timeout t =>
    obtain ⟨-, heq⟩ := Option.ite_none_right_eq_some.mp hstep
    obtain rfl := Option.some.inj heq
    exact .inl ⟨id, { o.queue with lists := o.queue.lists.rtThreadTimeout t }, o.asked,
      ⟨rfl, rfl, rfl, rfl⟩, rfl⟩
  | run t =>
    obtain ⟨-, heq⟩ := Option.ite_none_right_eq_some.mp hstep
    have hagain : Same o.queue (o.queue.runAgain t) := ⟨rfl, rfl, rfl, rfl⟩
    cases hcall : o.queue.call t with
    | none =>
      rw [hcall] at heq
      cases heq
    | some c =>
      rw [hcall] at heq
      cases c with
      | push item timeout =>
        obtain rfl := Option.some.inj heq
        rw [hasked t item timeout hcall]
        unfold RtDataQueue.pushAgain
        split
        · rename_i herr
          refine .inl ⟨fun hs => herr hs.2.1, o.queue.runAgain t, o.asked, hagain, ?_⟩
          exact if_neg fun h => herr (Option.some.inj h)
        · rename_i herr
          obtain ⟨hfull, q', asked, hsame, h⟩ | ⟨hroom, q', hsame, h⟩ :=
            pushing_cases o hagain t item timeout
          · exact .inl ⟨fun hs => hs.2.2 hfull, q', asked, hsame, h⟩
          · refine .inr (.inl ⟨⟨?_, not_not.mp herr, hroom⟩, hroom, item, q', hsame, h⟩)
            rw [hcall]
            rfl
      | pop timeout =>
        have hnot : ¬ Stores o (.run t) := fun hs => by
          have := hs.1
          rw [hcall] at this
          cases this
        obtain rfl := Option.some.inj heq
        unfold RtDataQueue.popAgain
        split
        · exact .inl ⟨hnot, o.queue.runAgain t, o.asked, hagain, rfl⟩
        · obtain ⟨-, q', hsame, h⟩ | ⟨hne, q', hsame, h⟩ := popping_cases o hagain t timeout
          · exact .inl ⟨hnot, q', o.asked, hsame, h⟩
          · exact .inr (.inr ⟨hnot, hne, q', hsame, h⟩)

theorem Inv.step {o o' : Observed Thread} {e : Event Thread} (h : Inv o) (hasked : Asked o)
    (hfree : SlotFree o e) (hstep : step o e = some o') : Inv o' := by
  obtain ⟨-, q, asked, hsame, rfl⟩ | ⟨hstores, hroom, item, q, hsame, rfl⟩ |
    ⟨-, hne, q, hsame, rfl⟩ := step_cases hasked hstep
  · exact h.congr hsame asked
  · exact (h.store hroom (hfree hstores) item).congr hsame _
  · exact (h.take hne).congr hsame _

theorem Inv.slotFree {o o' : Observed Thread} {e : Event Thread} (h : Inv o) (hasked : Asked o)
    (hstep : DataQueue.step o e = some o') (hfifo : Fifo o') : SlotFree o e := by
  intro hstores i hi htaken
  obtain ⟨hnot, -⟩ | ⟨-, -, item, q, hsame, rfl⟩ | ⟨hnot, -⟩ := step_cases hasked hstep
  · exact hnot hstores
  · refine h.not_store hi htaken item ⟨hfifo.fifo.trans ?_, ?_⟩
    · unfold stored
      dsimp only
      rw [hsame.count, hsame.position, hsame.queue]
      rfl
    · have := hfifo.count_le
      dsimp only at this
      rwa [hsame.count, hsame.size] at this
  · exact hnot hstores

omit [DecidableEq Thread] in
theorem asked_start (size lwm : BitVec 16) (queue : Nat → RtDataItem)
    (priority : Thread → Nat) : Asked (start size lwm queue priority) := fun _ _ _ h => by cases h

omit [DecidableEq Thread] in
theorem inv_start (size lwm : BitVec 16) (queue : Nat → RtDataItem)
    (priority : Thread → Nat) : Inv (start size lwm queue priority) := by
  have hzero : count (start size lwm queue priority).queue = 0 := by simp [count, start]
  refine ⟨⟨?_, hzero.trans_le (Nat.zero_le _)⟩, fun k hk => absurd hk (Nat.not_lt_zero k)⟩
  rw [stored, hzero]
  rfl

/-- Whoever pushes, pops and times out in whatever order. -/
theorem fifo_throughout_iff (size lwm : BitVec 16) (queue : Nat → RtDataItem)
    (priority : Thread → Nat) (es : List (Event Thread)) :
    Throughout step Fifo (start size lwm queue priority) es ↔
      Along step SlotFree (start size lwm queue priority) es :=
  throughout_iff_along (J := fun o => Inv o ∧ Asked o) (fun _ h => h.1.toFifo)
    (fun _ _ _ h hfree hstep => ⟨h.1.step h.2 hfree hstep, h.2.step hstep⟩)
    (fun _ _ _ h hstep hfifo => h.1.slotFree h.2 hstep hfifo)
    ⟨inv_start size lwm queue priority, asked_start size lwm queue priority⟩ es

/-! ## When the indices wrap -/

omit [DecidableEq Thread] in
/-- While `put_index` has not overtaken its maximum, nothing is overwritten. -/
theorem Inv.slotFree_of_le {o : Observed Thread} (h : Inv o)
    (hle : o.queue.getIndex ≤ o.queue.putIndex) (e : Event Thread) : SlotFree o e := by
  intro hstores i hi htaken
  have hroom : o.queue.difference ≠ o.queue.size.toNat := by
    cases e with
    | push t item timeout => exact hstores
    | run t => exact hstores.2.2
    | pop t timeout => cases hstores
    | peak t => cases hstores
    | timeout t => cases hstores
  have hcount := h.count_le
  have hle' := BitVec.le_def.mp hle
  have hdist : count o.queue = o.queue.putIndex.toNat - o.queue.getIndex.toNat :=
    BitVec.toNat_sub_of_le hle
  have hindex : (o.queue.getIndex + BitVec.ofNat 16 i).toNat = o.queue.getIndex.toNat + i := by
    bv_omega
  unfold RtDataQueue.difference at hroom
  unfold position RtDataQueue.slot at htaken
  rw [hindex] at htaken
  -- two different numbers less than the size apart have different remainders
  have hput : o.queue.putIndex.toNat =
      o.queue.getIndex.toNat + i + (count o.queue - i) := by omega
  rw [hput] at htaken
  have hmod := Nat.sub_mod_eq_zero_of_mod_eq htaken.symm
  rw [Nat.add_sub_cancel_left, Nat.mod_eq_of_lt (by omega)] at hmod
  omega

def someItem : RtDataItem := ⟨0, 0⟩

/-- A push and a pop that do not wait, `n` times. -/
def rounds (n : Nat) : List (Event Unit) :=
  (List.replicate n [Event.push () someItem 0, .pop () 0]).flatten

/-- An empty queue of one slot whose indices have come to `n`. -/
structure At (n : Nat) (o : Observed Unit) : Prop where
  size : o.queue.size = 1
  getIndex : o.queue.getIndex = BitVec.ofNat 16 n
  putIndex : o.queue.putIndex = BitVec.ofNat 16 n

/-- A push where the comparison does not find the queue full. -/
theorem step_push {o : Observed Unit} (hroom : o.queue.difference ≠ o.queue.size.toNat) :
    ∃ o', step o (.push () someItem 0) = some o' ∧ Same (o.queue.store someItem) o'.queue := by
  have hstep : step o (.push () someItem 0) =
      some (o.pushing () someItem (o.queue.pushTurn () someItem 0)) := by
    unfold step
    exact if_pos (.inl rfl)
  refine ⟨_, hstep, ?_⟩
  obtain ⟨hfull, -⟩ | ⟨-, q, hsame, heq⟩ := pushing_cases o (.refl o.queue) () someItem 0
  · exact absurd hfull hroom
  · rw [heq]
    exact hsame

theorem step_pop {o : Observed Unit} (hne : o.queue.getIndex ≠ o.queue.putIndex) :
    ∃ o', step o (.pop () 0) = some o' ∧ Same o.queue.take o'.queue := by
  have hstep : step o (.pop () 0) = some (o.popping (o.queue.popTurn () 0)) := by
    unfold step
    exact if_pos (.inl rfl)
  refine ⟨_, hstep, ?_⟩
  obtain ⟨hempty, -⟩ | ⟨-, q, hsame, heq⟩ := popping_cases o (.refl o.queue) () 0
  · exact absurd hempty hne
  · rw [heq]
    exact hsame

theorem At.round {n : Nat} {o : Observed Unit} (h : At n o) :
    ∃ o', run step o (rounds 1) = some o' ∧ At (n + 1) o' := by
  have hroom : o.queue.difference ≠ o.queue.size.toNat := by
    rw [RtDataQueue.difference, h.putIndex, h.getIndex, h.size, Int.sub_self]
    decide
  have hnext : BitVec.ofNat 16 n + 1 = BitVec.ofNat 16 (n + 1) := (BitVec.ofNat_add n 1).symm
  obtain ⟨o₁, hpush, hsame⟩ := step_push hroom
  have hput : o₁.queue.putIndex = BitVec.ofNat 16 (n + 1) := by
    rw [hsame.putIndex, ← hnext, ← h.putIndex]
    rfl
  have hget : o₁.queue.getIndex = BitVec.ofNat 16 n := hsame.getIndex.trans h.getIndex
  obtain ⟨o₂, hpop, hsame'⟩ := step_pop (o := o₁) (by rw [hput, hget, ← hnext]; bv_omega)
  refine ⟨o₂, ?_, ⟨hsame'.size.trans (hsame.size.trans h.size), ?_, hsame'.putIndex.trans hput⟩⟩
  · have hone : rounds 1 = [.push () someItem 0, .pop () 0] := rfl
    rw [hone, run_cons, hpush, Option.bind_some, run_cons, hpop]
    rfl
  · rw [hsame'.getIndex, ← hnext, ← hget]
    rfl

theorem rounds_at (n : Nat) {o : Observed Unit} (h : At 0 o) :
    ∃ o', run step o (rounds n) = some o' ∧ At n o' := by
  induction n with
  | zero => exact ⟨o, rfl, h⟩
  | succ n ih =>
    obtain ⟨o₁, hrun, h₁⟩ := ih
    obtain ⟨o₂, hround, h₂⟩ := h₁.round
    have hsplit : rounds (n + 1) = rounds n ++ rounds 1 := by
      simp only [rounds, List.replicate_succ', List.replicate_zero, List.nil_append,
        List.flatten_append]
    refine ⟨o₂, ?_, h₂⟩
    rw [hsplit, run_append, hrun]
    exact hround

/-- A queue of one slot, two pushes after the 65535th pop: the second overwrites the first,
whose number for `put_index` is 65535 and for the other is 0. -/
theorem push_overwrites_at_the_wrap :
    ¬ Throughout step Fifo (start 1 0 (fun _ => someItem) fun _ => 0)
      (rounds 65535 ++ [Event.push () someItem 0, .push () someItem 0]) := fun h => by
  obtain ⟨o, hrun, hat⟩ := rounds_at 65535
    (o := start 1 0 (fun _ => someItem) fun _ => 0) ⟨rfl, rfl, rfl⟩
  have hroom : o.queue.difference ≠ o.queue.size.toNat := by
    rw [RtDataQueue.difference, hat.putIndex, hat.getIndex, hat.size, Int.sub_self]
    decide
  obtain ⟨o₁, hpush, hsame⟩ := step_push hroom
  have hput : o₁.queue.putIndex = 0 := by
    rw [hsame.putIndex]
    change o.queue.putIndex + 1 = 0
    rw [hat.putIndex]
    rfl
  have hget : o₁.queue.getIndex = 65535 := hsame.getIndex.trans hat.getIndex
  have hsize : o₁.queue.size = 1 := hsame.size.trans hat.size
  have hroom' : o₁.queue.difference ≠ o₁.queue.size.toNat := by
    rw [RtDataQueue.difference, hput, hget, hsize]
    decide
  obtain ⟨o₂, hpush', hsame'⟩ := step_push hroom'
  have hlast : run step (start 1 0 (fun _ => someItem) fun _ => 0)
      (rounds 65535 ++ [Event.push () someItem 0, .push () someItem 0]) = some o₂ := by
    rw [run_append, hrun, Option.bind_some, run_cons, hpush, Option.bind_some, run_cons, hpush']
    rfl
  have hle := (h.last hlast).count_le
  have hcount : count o₂.queue = 2 := by
    rw [hsame'.count]
    change (o₁.queue.putIndex + 1 - o₁.queue.getIndex).toNat = 2
    rw [hput, hget]
    rfl
  rw [hcount, hsame'.size] at hle
  change 2 ≤ o₁.queue.size.toNat at hle
  rw [hsize] at hle
  exact absurd hle (by decide)

end ControlRTT.Drivers.DataQueue

import ControlRTT.Lib.LinkedList
import Mathlib.Algebra.Order.Ring.Int

/-! # The list of pending signals (signal.c)

The nodes of a thread's pending signals are linked by their members `list`, and `si_list` is read
as a pointer to a node. `rt_signal_wait` stores the address of a member in it when it takes the
first of several nodes, and `rt_thread_kill` walks from it as if it were one
(`pendingList_kept_iff`). Reading what is not a node is undefined (`none`), and so is a loop
that does not end. -/
namespace ControlRTT.Kernel.SignalList
open ControlRTT.Lib.LinkedList

abbrev Addr := BitVec 32

/-- `siginfo_t` -/
structure SigInfo where
  siSigno : Nat
  siCode : Nat
  siValue : Addr
  deriving DecidableEq

/-- `nodes` has the addresses of the pool's blocks that are nodes, `si` the `siginfo_t` of a node,
and `next` what is stored in the member `list` that is at an address. -/
structure Thread where
  nodes : Addr → Bool
  si : Addr → SigInfo
  next : Addr → Addr
  siList : Addr
  sigPending : BitVec 32

def sigMask (signo : Nat) : BitVec 32 := 1 <<< signo

/-- `sig_valid`, with `RT_SIG_MAX` -/
def sigValid (signo : Nat) : Bool := signo < 32

/-- The member `list` of a node. -/
def list (node : Addr) : Addr := node + 8

/-- `rt_slist_entry` -/
def entry (l : Addr) : Addr := l - 8

/-! ## rt_signal_wait -/

/-- A matching node is taken out. -/
def Thread.take (s : Thread) (siPrev siNode : Addr) : Thread :=
  let unlinked :=
    if siPrev ≠ 0 then
      { s with next := Function.update s.next (list siPrev) (s.next (list siNode)) }
    else { s with siList := s.next (list siNode) }
  { unlinked with
    sigPending := s.sigPending &&& ~~~sigMask (s.si siNode).siSigno
    nodes := Function.update s.nodes siNode false }

/-- `to get the first matched pending signals` -/
def waitLoop (s : Thread) (set : BitVec 32) : Nat → Addr → Addr → Option (Thread × Option SigInfo)
  | 0, _, _ => none
  | fuel + 1, siPrev, siNode =>
    if siNode = 0 then some (s, none)
    else if s.nodes siNode then
      if sigMask (s.si siNode).siSigno &&& set ≠ 0 then
        some (s.take siPrev siNode, some (s.si siNode))
      else waitLoop s set fuel siNode (entry (s.next (list siNode)))
    else none

/-- A call that does not wait. If nothing of the set is pending it times out, and after a wait
there is the same loop. -/
def rtSignalWait (fuel : Nat) (s : Thread) (set : BitVec 32) : Option (Thread × Option SigInfo) :=
  if s.sigPending &&& set ≠ 0 then waitLoop s set fuel 0 s.siList else some (s, none)

/-! ## rt_thread_kill -/

/-- `whether already emits this signal?` -/
def updateLoop (s : Thread) (sig : Nat) : Nat → Addr → Option (Option Addr)
  | 0, _ => none
  | fuel + 1, node =>
    if node = 0 then some none
    else if s.nodes (entry node) then
      if (s.si (entry node)).siSigno = sig then some (some (entry node))
      else updateLoop s sig fuel (s.next node)
    else none

/-- The loop of `rt_slist_append`. -/
def lastLoop (s : Thread) : Nat → Addr → Option Addr
  | 0, _ => none
  | fuel + 1, node =>
    if s.nodes (entry node) then
      if s.next node = 0 then some node else lastLoop s fuel (s.next node)
    else none

/-- `rt_slist_init` and the copy of `si` for a block of the pool. -/
def Thread.newNode (s : Thread) (si : SigInfo) (siNode : Addr) : Thread :=
  { s with
    nodes := Function.update s.nodes siNode true
    si := Function.update s.si siNode si
    next := Function.update s.next (list siNode) 0 }

/-- `siNode` is what `rt_mp_alloc` returns. -/
def Thread.enqueue (s : Thread) (fuel : Nat) (si : SigInfo) (siNode : Addr) : Option Thread :=
  if siNode = 0 then some s
  else
    let s := s.newNode si siNode
    if s.siList = 0 then some { s with siList := siNode }
    else
      (lastLoop s fuel (list s.siList)).map fun node =>
        { s with next :=
          Function.update (Function.update s.next node (list siNode)) (list siNode) 0 }

/-- `si_code` is `SI_USER`. -/
def userInfo (sig : Nat) : SigInfo where
  siSigno := sig
  siCode := 1
  siValue := 0

/-- Up to `_signal_deliver`. -/
def rtThreadKill (fuel : Nat) (s : Thread) (sig : Nat) (siNode : Addr) : Option Thread :=
  if sigValid sig then
    if s.sigPending &&& sigMask sig ≠ 0 then
      -- `node = (struct rt_slist_node *)tid->si_list;`
      match updateLoop s sig fuel s.siList with
      | some (some entry) => some { s with si := Function.update s.si entry (userInfo sig) }
      | some none => s.enqueue fuel (userInfo sig) siNode
      | none => none
    else
      Thread.enqueue { s with sigPending := s.sigPending ||| sigMask sig } fuel (userInfo sig)
        siNode
  else some s

/-! ## The list -/

/-- A pointer that may be null. -/
def ptr (a : Addr) : Option Addr := if a = 0 then none else some a

/-- The members `list` of the nodes that are reached from `si_list`. -/
structure Represents (s : Thread) (queue : List Addr) : Prop where
  head : s.siList = (queue.head?.map entry).getD 0
  chain : Chain (ptr ∘ s.next) queue.head? queue
  nodes : ∀ l ∈ queue, s.nodes (entry l) = true

/-- Nodes have 12 bytes. -/
structure Apart (s : Thread) : Prop where
  room : ∀ a, s.nodes a = true → 0 < a.toNat ∧ a.toNat + 12 ≤ 2 ^ 32
  apart : ∀ a b, s.nodes a = true → s.nodes b = true → a.toNat < b.toNat → a.toNat + 12 ≤ b.toNat

/-- A thread whose pending signals are in its list. -/
structure Queued where
  thread : Thread
  queue : List Addr
  represents : Represents thread queue
  nodup : queue.Nodup
  apart : Apart thread
  pending : ∀ l ∈ queue, thread.sigPending &&& sigMask (thread.si (entry l)).siSigno ≠ 0

/-- What `rt_mp_alloc` returns: a block that is not a node, or null. -/
structure Block (s : Thread) where
  addr : Addr
  room : addr.toNat + 12 ≤ 2 ^ 32
  free : addr ≠ 0 → s.nodes addr = false ∧ ∀ a, s.nodes a = true →
    a.toNat + 12 ≤ addr.toNat ∨ addr.toNat + 12 ≤ a.toNat

inductive Call (q : Queued) where
  | wait (set : BitVec 32)
  | kill (sig : Nat) (block : Block q.thread)

def Queued.infoAt (q : Queued) (l : Addr) : SigInfo := q.thread.si (entry l)

def Queued.matched (q : Queued) (set : BitVec 32) (l : Addr) : Bool :=
  sigMask (q.infoAt l).siSigno &&& set ≠ 0

/-- A call takes the first matching node, or updates the node of a signal, or appends a node. -/
def Kept (q : Queued) : Call q → Prop
  | .wait set => q.thread.sigPending &&& set ≠ 0 →
    ∃ fuel s' l, q.queue.find? (q.matched set) = some l ∧
      rtSignalWait fuel q.thread set = some (s', some (q.infoAt l)) ∧
      Represents s' (q.queue.eraseP (q.matched set)) ∧
      ∀ m ∈ q.queue.eraseP (q.matched set), s'.si (entry m) = q.infoAt m
  | .kill sig block => sigValid sig = true →
    ∃ fuel s', rtThreadKill fuel q.thread sig block.addr = some s' ∧
      match q.queue.find? fun l => (q.infoAt l).siSigno = sig with
      | some l => Represents s' q.queue ∧
        s'.si = Function.update q.thread.si (entry l) (userInfo sig)
      | none => Represents s' (q.queue ++ [list block.addr]) ∧
        s'.si block.addr = userInfo sig ∧ ∀ m ∈ q.queue, s'.si (entry m) = q.infoAt m

/-- The first matching node is the only one or not the first; and a signal that is sent is not
pending in a list with nodes, and there is a block for it. -/
def Safe (q : Queued) : Call q → Prop
  | .wait set => q.thread.sigPending &&& set ≠ 0 →
    ∃ l, q.queue.find? (q.matched set) = some l ∧ (q.queue.head? = some l → q.queue = [l])
  | .kill sig block => sigValid sig = true →
    (q.thread.sigPending &&& sigMask sig ≠ 0 → q.queue = []) ∧ block.addr ≠ 0

/-! ## Addresses -/

@[simp] theorem entry_list (a : Addr) : entry (list a) = a := BitVec.add_sub_cancel _ _

@[simp] theorem list_entry (l : Addr) : list (entry l) = l := BitVec.sub_add_cancel _ _

theorem eq_of_ptr {a : Addr} {l : Option Addr} (h : ptr a = l) : a = l.getD 0 := by
  subst h
  unfold ptr
  split
  · assumption
  · rfl

section
variable {s : Thread} {set : BitVec 32} {l m : Addr} {pre post queue : List Addr}

theorem Apart.not_zero (h : Apart s) : s.nodes 0 = false := by
  refine Bool.eq_false_iff.mpr fun hzero => ?_
  exact absurd (h.room 0 hzero).1 (by decide)

theorem Apart.ne_zero (h : Apart s) {a : Addr} (ha : s.nodes a = true) : a ≠ 0 := by
  rintro rfl
  rw [h.not_zero] at ha
  cases ha

/-- What is 8 bytes in front of a node is none. -/
theorem Apart.not_entry (h : Apart s) {a : Addr} (ha : a = 0 ∨ s.nodes a = true) :
    s.nodes (entry a) = false := by
  refine Bool.eq_false_iff.mpr fun hentry => ?_
  have hroom := (h.room _ hentry).2
  rcases ha with rfl | ha
  · exact absurd hroom (by decide)
  · have hapart := h.apart _ _ hentry ha
    have hnode := h.room a ha
    unfold entry at hroom hapart
    bv_omega

theorem Represents.next_eq (pre : List Addr) (h : Represents s (pre ++ l :: post)) :
    s.next l = post.head?.getD 0 :=
  eq_of_ptr h.chain.rest.eq_head

/-! ## The walk of rt_signal_wait -/

theorem waitLoop_cons (happart : Apart s) (hnode : s.nodes (entry m) = true) (fuel : Nat)
    (siPrev : Addr) : waitLoop s set (fuel + 1) siPrev (entry m) =
      if sigMask (s.si (entry m)).siSigno &&& set ≠ 0 then
        some (s.take siPrev (entry m), some (s.si (entry m)))
      else waitLoop s set fuel (entry m) (entry (s.next m)) := by
  rw [waitLoop, if_neg (happart.ne_zero hnode), if_pos hnode, list_entry]

/-- The first matching node is taken, with the node in front of it. -/
theorem waitLoop_found (happart : Apart s) (hmatch : sigMask (s.si (entry l)).siSigno &&& set ≠ 0)
    (hpre : ∀ m ∈ pre, ¬ sigMask (s.si (entry m)).siSigno &&& set ≠ 0)
    (hchain : Chain (ptr ∘ s.next) (pre ++ l :: post).head? (pre ++ l :: post))
    (hnodes : ∀ m ∈ pre ++ l :: post, s.nodes (entry m) = true) (fuel : Nat) (siPrev : Addr) :
    waitLoop s set fuel siPrev (entry ((pre ++ l :: post).head?.getD 0)) =
      if pre.length < fuel then
        some (s.take ((pre.getLast?.map entry).getD siPrev) (entry l), some (s.si (entry l)))
      else none := by
  induction pre generalizing fuel siPrev with
  | nil =>
    cases fuel with
    | zero => rfl
    | succ fuel =>
      have hnode := hnodes l List.mem_cons_self
      rw [List.nil_append, List.head?_cons, Option.getD_some, waitLoop_cons happart hnode,
        if_pos hmatch, if_pos (by simp)]
      rfl
  | cons m pre ih =>
    cases fuel with
    | zero => rfl
    | succ fuel =>
      have hnext : s.next m = (pre ++ l :: post).head?.getD 0 := eq_of_ptr hchain.2.eq_head
      rw [List.cons_append, List.head?_cons, Option.getD_some,
        waitLoop_cons happart (hnodes m List.mem_cons_self), if_neg (hpre m List.mem_cons_self),
        hnext, ih (fun m hm => hpre m (List.mem_cons_of_mem _ hm)) (hchain.2.eq_head ▸ hchain.2)
          (fun m hm => hnodes m (List.mem_cons_of_mem _ hm)), List.length_cons]
      simp only [Nat.succ_lt_succ_iff]
      rw [List.getLast?_cons]
      cases pre.getLast? <;> rfl

/-! ## Taking a node -/

theorem Represents.take_only (h : Represents s [l]) : Represents (s.take 0 (entry l)) [] where
  head := by
    have hnext : s.next l = 0 := Represents.next_eq [] h
    simp [Thread.take, hnext]
  chain := rfl
  nodes _ hm := by cases hm

theorem Represents.take_behind (h : Represents s (pre ++ m :: l :: post)) (hapart : Apart s)
    (hnodup : (pre ++ m :: l :: post).Nodup) :
    Represents (s.take (entry m) (entry l)) (pre ++ m :: post) := by
  have hmem : m ∈ pre ++ m :: l :: post := by simp
  have hprev : entry m ≠ 0 := hapart.ne_zero (h.nodes m hmem)
  have hmid := List.nodup_middle.mp hnodup
  obtain ⟨hnot, hrest⟩ := List.nodup_cons.mp hmid
  have hmpost : m ∉ pre ∧ m ∉ post := by
    simp only [List.mem_append, List.mem_cons, not_or] at hnot
    exact ⟨hnot.1, hnot.2.2⟩
  have hl : l ∉ pre ++ m :: post := by
    have hl := (List.nodup_cons.mp (List.nodup_middle.mp hrest)).1
    simp only [List.mem_append, List.mem_cons, not_or] at hl hnot ⊢
    exact ⟨hl.1, fun hlm => hnot.2.1 hlm.symm, hl.2⟩
  have hnext : s.next l = post.head?.getD 0 :=
    Represents.next_eq (pre ++ [m]) (by simpa using h)
  have hlist : Chain (ptr ∘ s.next) (pre ++ m :: l :: post).head? ((pre ++ [m]) ++ l :: post) := by
    simpa using h.chain
  have hlpost : Chain (ptr ∘ s.next) (ptr (s.next l)) post := hlist.rest
  have hchain := h.chain.relink hmpost.1 hlpost hmpost.2
  refine ⟨?_, ?_, fun x hx => ?_⟩
  · have hhead := h.head
    simp only [Thread.take, ne_eq, hprev, not_false_eq_true, if_true, hhead]
    cases pre <;> rfl
  · simp only [Thread.take, ne_eq, hprev, not_false_eq_true, if_true, list_entry]
    rw [Function.comp_update]
    cases pre with
    | nil => exact hchain
    | cons c pre => exact hchain
  · have hne : entry x ≠ entry l := by
      intro heq
      have hxl : x = l := by rw [← list_entry x, heq, list_entry]
      exact hl (hxl ▸ hx)
    have hnodes : (s.take (entry m) (entry l)).nodes =
      Function.update s.nodes (entry l) false := rfl
    rw [hnodes, Function.update_of_ne hne]
    refine h.nodes x ?_
    simp only [List.mem_append, List.mem_cons] at hx ⊢
    tauto

/-! ## Appending a node -/

theorem lastLoop_eq (hchain : Chain (ptr ∘ s.next) queue.head? queue)
    (hnodes : ∀ m ∈ queue, s.nodes (entry m) = true) (hlast : queue.getLast? = some l) :
    lastLoop s queue.length (queue.head?.getD 0) = some l := by
  induction queue with
  | nil => cases hlast
  | cons m queue ih =>
    have hnext : s.next m = queue.head?.getD 0 := eq_of_ptr hchain.2.eq_head
    rw [List.head?_cons, Option.getD_some, List.length_cons, lastLoop,
      if_pos (hnodes m List.mem_cons_self)]
    cases queue with
    | nil => exact (if_pos hnext).trans hlast
    | cons c queue =>
      have hc : s.next m ≠ 0 := by
        intro hzero
        have hptr := hchain.2.1
        rw [Function.comp_apply, hzero] at hptr
        cases hptr
      rw [if_neg hc, hnext]
      refine ih (hchain.2.eq_head ▸ hchain.2) (fun m hm => hnodes m (List.mem_cons_of_mem _ hm)) ?_
      rwa [List.getLast?_cons_cons] at hlast

/-- A block of the pool is put behind the last node. -/
theorem Represents.enqueue (h : Represents s queue) (hapart : Apart s) (hnodup : queue.Nodup)
    (block : Block s) (hblock : block.addr ≠ 0) (si : SigInfo) :
    ∃ fuel s', s.enqueue fuel si block.addr = some s' ∧
      Represents s' (queue ++ [list block.addr]) ∧ s'.si = Function.update s.si block.addr si := by
  have hfree := (block.free hblock).1
  have hlist : list block.addr ≠ 0 := by
    have hroom := block.room
    unfold list
    bv_omega
  have hnew : list block.addr ∉ queue := by
    intro hmem
    have hnode := h.nodes _ hmem
    rw [entry_list, hfree] at hnode
    cases hnode
  have hnodes : ∀ m ∈ queue ++ [list block.addr],
      (s.newNode si block.addr).nodes (entry m) = true := by
    intro m hm
    unfold Thread.newNode
    rcases List.mem_append.mp hm with hm | hm
    · by_cases heq : entry m = block.addr
      · rw [heq]
        exact Function.update_self _ _ _
      · exact (Function.update_of_ne heq _ _).trans (h.nodes m hm)
    · rw [List.mem_singleton.mp hm, entry_list]
      exact Function.update_self _ _ _
  have hnext : ptr ∘ (s.newNode si block.addr).next =
      Function.update (ptr ∘ s.next) (list block.addr) none := by
    unfold Thread.newNode
    rw [Function.comp_update]
    rfl
  have hchain : Chain (ptr ∘ (s.newNode si block.addr).next) queue.head? queue := by
    rw [hnext]
    exact h.chain.update hnew none
  cases hq : queue.getLast? with
  | none =>
    obtain rfl := List.getLast?_eq_none_iff.mp hq
    have hempty : (s.newNode si block.addr).siList = 0 := h.head
    refine ⟨0, { s.newNode si block.addr with siList := block.addr }, ?_, ⟨?_, ?_, hnodes⟩, rfl⟩
    · rw [Thread.enqueue, if_neg hblock]
      exact if_pos hempty
    · exact (entry_list _).symm
    · refine ⟨rfl, ?_⟩
      change (ptr ∘ (s.newNode si block.addr).next) (list block.addr) = none
      rw [hnext]
      exact Function.update_self _ _ _
  | some r =>
    have hlast := lastLoop_eq hchain (fun m hm => hnodes m (List.mem_append_left _ hm)) hq
    obtain ⟨c, rest, rfl⟩ := List.exists_cons_of_ne_nil
      (fun hnil : queue = [] => by rw [hnil] at hq; cases hq)
    have hsiList : (s.newNode si block.addr).siList = entry c := h.head
    have hne : (s.newNode si block.addr).siList ≠ 0 := by
      rw [hsiList]
      exact hapart.ne_zero (h.nodes c List.mem_cons_self)
    obtain ⟨next, hlinked⟩ : ∃ next, next = Function.update
      (Function.update (s.newNode si block.addr).next r (list block.addr)) (list block.addr) 0 :=
      ⟨_, rfl⟩
    refine ⟨(c :: rest).length, { s.newNode si block.addr with next },
      ?_, ⟨h.head, ?_, hnodes⟩, rfl⟩
    · rw [hlinked, Thread.enqueue, if_neg hblock]
      dsimp only
      rw [if_neg hne, hsiList, list_entry]
      exact congrArg (Option.map _) hlast
    · have hnull : (ptr ∘ (s.newNode si block.addr).next) (list block.addr) = none := by
        rw [hnext]
        exact Function.update_self _ _ _
      refine (hchain.append hnodup hq hnew hnull).congr fun m hm => ?_
      have hr : list block.addr ≠ r := fun heq => hnew (heq ▸ List.mem_of_getLast? hq)
      rw [hlinked, Function.comp_update, Function.comp_update]
      have hsome : ptr (list block.addr) = some (list block.addr) := if_neg hlist
      by_cases hml : m = list block.addr
      · subst hml
        rw [Function.update_self, Function.update_of_ne hr, hnull]
        rfl
      · rw [Function.update_of_ne hml, hsome]

/-! ## The calls -/

theorem updateLoop_first (h : Represents s (m :: queue)) (hapart : Apart s) (sig fuel : Nat) :
    updateLoop s sig fuel s.siList = none := by
  have hnode : s.nodes (entry m) = true := h.nodes m List.mem_cons_self
  have hsiList : s.siList = entry m := h.head
  rw [hsiList]
  cases fuel with
  | zero => rfl
  | succ fuel =>
    rw [updateLoop, if_neg (hapart.ne_zero hnode), hapart.not_entry (.inr hnode)]
    rfl

end

variable {q : Queued}

theorem find?_sig_eq_none {sig : Nat} (h : q.thread.sigPending &&& sigMask sig = 0) :
    q.queue.find? (fun l => (q.infoAt l).siSigno = sig) = none := by
  rw [List.find?_eq_none]
  intro l hl hsig
  have hpending := q.pending l hl
  have hsame : (q.thread.si (entry l)).siSigno = sig := of_decide_eq_true hsig
  rw [hsame] at hpending
  exact hpending h

theorem kept_kill_iff (sig : Nat) (block : Block q.thread) :
    Kept q (.kill sig block) ↔ Safe q (.kill sig block) := by
  refine forall_congr' fun hvalid => ?_
  have hrep := q.represents
  constructor
  · rintro ⟨fuel, s', hrun, hkept⟩
    have hempty : q.thread.sigPending &&& sigMask sig ≠ 0 → q.queue = [] := by
      intro hbit
      cases hq : q.queue with
      | nil => rfl
      | cons m queue =>
        rw [rtThreadKill, if_pos hvalid, if_pos hbit,
          updateLoop_first (hq ▸ hrep) q.apart] at hrun
        cases hrun
    refine ⟨hempty, fun hzero => ?_⟩
    have hnone : q.queue.find? (fun l => (q.infoAt l).siSigno = sig) = none := by
      by_cases hbit : q.thread.sigPending &&& sigMask sig = 0
      · exact find?_sig_eq_none hbit
      · rw [hempty hbit]
        rfl
    rw [hnone] at hkept
    have hnode := hkept.1.nodes (list block.addr) (by simp)
    have hsame : s'.nodes = q.thread.nodes := by
      rw [rtThreadKill, if_pos hvalid, hzero] at hrun
      split at hrun
      · rename_i hbit
        split at hrun
        · rename_i e hloop
          have hq := hempty hbit
          rw [hrep.head, hq] at hloop
          cases fuel with
          | zero => cases hloop
          | succ fuel => cases hloop
        · obtain rfl := Option.some.inj hrun
          rfl
        · cases hrun
      · obtain rfl := Option.some.inj hrun
        rfl
    rw [hsame, entry_list, hzero, q.apart.not_zero] at hnode
    cases hnode
  · rintro ⟨hempty, hblock⟩
    have hkeep (s : Thread) (hs : s.si = q.thread.si) (m : Addr) (hm : m ∈ q.queue) :
        Function.update s.si block.addr (userInfo sig) (entry m) = q.infoAt m := by
      have hne : entry m ≠ block.addr := by
        intro heq
        have hnode := hrep.nodes m hm
        rw [heq, (block.free hblock).1] at hnode
        cases hnode
      rw [Function.update_of_ne hne, hs]
      rfl
    by_cases hbit : q.thread.sigPending &&& sigMask sig = 0
    · obtain ⟨fuel, s', hrun, hrep', hsi⟩ := Represents.enqueue
        (s := { q.thread with sigPending := q.thread.sigPending ||| sigMask sig })
        ⟨hrep.head, hrep.chain, hrep.nodes⟩ ⟨q.apart.room, q.apart.apart⟩ q.nodup
        ⟨block.addr, block.room, block.free⟩ hblock (userInfo sig)
      refine ⟨fuel, s', ?_, ?_⟩
      · rw [rtThreadKill, if_pos hvalid, if_neg (not_not_intro hbit)]
        exact hrun
      · rw [find?_sig_eq_none hbit]
        exact ⟨hrep', hsi ▸ Function.update_self _ _ _, fun m hm => hsi ▸ hkeep _ rfl m hm⟩
    · obtain ⟨fuel, s', hrun, hrep', hsi⟩ :=
        hrep.enqueue q.apart q.nodup block hblock (userInfo sig)
      have hq := hempty hbit
      have hsiList : q.thread.siList = 0 := by rw [hrep.head, hq]; rfl
      -- with an empty list there is nothing to walk
      have hany : q.thread.enqueue (fuel + 1) (userInfo sig) block.addr = some s' := by
        rw [← hrun]
        unfold Thread.enqueue
        rw [if_neg hblock, if_neg hblock]
        exact (if_pos hsiList).trans (if_pos hsiList).symm
      refine ⟨fuel + 1, s', ?_, ?_⟩
      · rw [rtThreadKill, if_pos hvalid, if_pos hbit, hsiList]
        exact hany
      · rw [show q.queue.find? (fun l => (q.infoAt l).siSigno = sig) = none by rw [hq]; rfl]
        exact ⟨hrep', hsi ▸ Function.update_self _ _ _, fun m hm => hsi ▸ hkeep _ rfl m hm⟩

theorem kept_wait_iff (set : BitVec 32) : Kept q (.wait set) ↔ Safe q (.wait set) := by
  refine forall_congr' fun hset => ?_
  have hrep := q.represents
  have hfound {l : Addr} {pre post : List Addr} (hq : q.queue = pre ++ l :: post)
      (hl : q.matched set l = true) (hpre : ∀ m ∈ pre, q.matched set m = false) (fuel : Nat) :
      rtSignalWait fuel q.thread set = if pre.length < fuel then
        some (q.thread.take ((pre.getLast?.map entry).getD 0) (entry l), some (q.infoAt l))
      else none := by
    have hsiList : q.thread.siList = entry ((pre ++ l :: post).head?.getD 0) := by
      rw [hrep.head, hq]
      cases pre <;> rfl
    rw [rtSignalWait, if_pos hset, hsiList]
    exact waitLoop_found q.apart (of_decide_eq_true hl)
      (fun m hm => of_decide_eq_false (hpre m hm)) (hq ▸ hrep.chain) (hq ▸ hrep.nodes) fuel 0
  have hsplit {l : Addr} (h : q.queue.find? (q.matched set) = some l) :
      ∃ pre post, q.queue = pre ++ l :: post ∧ q.matched set l = true ∧
        (∀ m ∈ pre, q.matched set m = false) ∧ q.queue.eraseP (q.matched set) = pre ++ post := by
    obtain ⟨hl, pre, post, hq, hpre⟩ := List.find?_eq_some_iff_append.mp h
    have hpre' : ∀ m ∈ pre, q.matched set m = false := fun m hm => by simpa using hpre m hm
    refine ⟨pre, post, hq, hl, hpre', ?_⟩
    rw [hq, List.eraseP_append_right _ (fun m hm => by simp [hpre' m hm]),
      List.eraseP_cons_of_pos hl]
  constructor
  · rintro ⟨fuel, s', l, hfind, hrun, hrep', -⟩
    refine ⟨l, hfind, fun hhead => ?_⟩
    obtain ⟨pre, post, hq, hl, hpre, herase⟩ := hsplit hfind
    rw [hfound hq hl hpre] at hrun
    obtain ⟨-, hrun⟩ := Option.ite_none_right_eq_some.mp hrun
    obtain ⟨rfl, -⟩ := Prod.mk.inj (Option.some.inj hrun)
    cases pre with
    | cons m pre =>
      rw [hq] at hhead
      obtain rfl := Option.some.inj hhead
      exact absurd (hl.symm.trans (hpre _ List.mem_cons_self)) (by simp)
    | nil =>
      rw [hq]
      cases post with
      | nil => rfl
      | cons p post =>
        -- `si_list` is the member of the next node, not the node
        have hnext : q.thread.next l = p := Represents.next_eq [] (hq ▸ hrep)
        have hsiList : p = entry p := by
          have hhead := hrep'.head
          rw [herase] at hhead
          have htaken : (q.thread.take 0 (entry l)).siList = q.thread.next (list (entry l)) := rfl
          rw [list_entry, hnext] at htaken
          exact htaken.symm.trans hhead
        unfold entry at hsiList
        exact absurd hsiList (by bv_omega)
  · rintro ⟨l, hfind, honly⟩
    obtain ⟨pre, post, hq, hl, hpre, herase⟩ := hsplit hfind
    refine ⟨pre.length + 1, _, l, hfind,
      (hfound hq hl hpre _).trans (if_pos (Nat.lt_succ_self _)), ?_, fun m _ => ?_⟩
    · rw [herase]
      cases hlast : pre.getLast? with
      | none =>
        obtain rfl := List.getLast?_eq_none_iff.mp hlast
        have hqueue := honly (by rw [hq]; rfl)
        obtain rfl : post = [] := by
          rw [hq] at hqueue
          exact (List.cons.inj hqueue).2
        exact Represents.take_only (hqueue ▸ hrep)
      | some m =>
        obtain ⟨front, rfl⟩ := List.getLast?_eq_some_iff.mp hlast
        rw [List.append_assoc] at hq ⊢
        exact Represents.take_behind (hq ▸ hrep) q.apart (hq ▸ q.nodup)
    · unfold Thread.take
      dsimp only
      split <;> rfl

/-- The pending list is kept by a call if and only if `rt_signal_wait` does not take the first of
several nodes, and `rt_thread_kill` does not look for a node that it has to update. -/
theorem pendingList_kept_iff (q : Queued) (c : Call q) : Kept q c ↔ Safe q c := by
  cases c with
  | wait set => exact kept_wait_iff set
  | kill sig block => exact kept_kill_iff sig block

/-- Signals 1 and 2 have been sent. -/
def twoPending : Queued where
  thread :=
    { nodes := fun a => decide (a = 0x1000 ∨ a = 0x2000)
      si := fun a => userInfo (if a = 0x1000 then 1 else 2)
      next := fun l => if l = 0x1008 then 0x2008 else 0
      siList := 0x1000
      sigPending := 6 }
  queue := [0x1008, 0x2008]
  represents := ⟨rfl, ⟨rfl, rfl, rfl⟩, by simp [entry]⟩
  nodup := by decide
  apart := by
    refine ⟨fun a ha => ?_, fun a b ha hb hlt => ?_⟩
    · rcases of_decide_eq_true ha with rfl | rfl
      · decide
      · decide
    · rcases of_decide_eq_true ha with rfl | rfl <;> rcases of_decide_eq_true hb with rfl | rfl
      all_goals revert hlt; decide
  pending := by simp [entry, sigMask, userInfo]

/-- Waiting for signal 1 leaves `si_list` in the middle of the node of signal 2. -/
theorem first_of_two : ¬ Kept twoPending (.wait 2) := by
  intro h
  obtain ⟨l, hfind, honly⟩ := (kept_wait_iff 2).mp h (by decide)
  obtain rfl : (0x1008 : Addr) = l := Option.some.inj hfind
  exact absurd (honly rfl) (by decide)

end ControlRTT.Kernel.SignalList

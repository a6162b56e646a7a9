import ControlRTT.Kernel.ReadyMap
import ControlRTT.Lib.LinkedList
import ControlRTT.Lib.Parties
import ControlRTT.Lib.PriorityQueue
import ControlRTT.Lib.Runs

/-! # The priority queue of the VBus

`components/vbus/prio_queue.c`: a list of blocks for each priority, with a bitmap of those that are
not empty, and the threads that wait to pop. Pushes and pops of any threads take turns; what they
do with interrupts off is one step, and so is each thing that they do to their own block. Blocks
come from a memory pool, which may make a push wait, or fail it, and hands out only blocks that it
has. In every run the queue is the priority queue of `Lib.PriorityQueue` (`refines_throughout`). -/
namespace ControlRTT.Components.PrioQueue
open Lib.LinkedList Lib.Parties Lib.Runs Kernel.Ffs Kernel.ReadyMap

/-- `RT_PRIO_QUEUE_PRIO_MAX` -/
def rtPrioQueuePrioMax : Nat := 32

abbrev Bytes := List UInt8

/-- Where a thread is: in no call; in `rt_mp_alloc`; before `rt_memcpy`, before it sets `next`, and
before `_do_push`; before `_do_pop`; in the list of those that wait; before it looks at `error`;
before `rt_memcpy`, and before `rt_mp_free`, when its caller has the bytes. -/
inductive Phase
  | idle
  | allocating (prio : Nat) (data : Bytes)
  | copying (prio : Nat) (data : Bytes) (item : Nat)
  | unlinking (prio : Nat) (data : Bytes) (item : Nat)
  | pushing (prio : Nat) (data : Bytes) (item : Nat)
  | popping (timeout : Int)
  | suspended (timeout : Int)
  | woken (timeout : Int) (expired : Bool)
  | fetching (item : Nat)
  | freeing (item : Nat) (data : Bytes)
  deriving DecidableEq, Repr

/-- A thread, and what its pops have returned. -/
structure Thread where
  phase : Phase := .idle
  returned : List Bytes := []
  deriving DecidableEq, Repr

/-- `struct rt_prio_queue`, its blocks with their `next` and what is behind it, the blocks that the
pool has handed out, and the threads; `failed` says that an assertion has failed. -/
structure System where
  bitmap : BitVec 32 := 0
  head : Nat → Option Nat := fun _ => none
  tail : Nat → Option Nat := fun _ => none
  suspendedPopList : List Nat := []
  next : Nat → Option Nat := fun _ => none
  data : Nat → Bytes
  owned : List Nat := []
  threads : List Thread
  failed : Bool := false

/-- A call, what the pool gives to a push, a step of a thread, and the end of its waiting time. -/
inductive Event
  | push (t prio : Nat) (data : Bytes)
  | pop (t : Nat) (timeout : Int)
  | alloc (t : Nat) (block : Option Nat)
  | go (t : Nat)
  | timeout (t : Nat)
  deriving DecidableEq, Repr

namespace System

def put (s : System) (t : Nat) (th : Thread) : System :=
  { s with threads := s.threads.set t th }

/-- `_do_push` -/
def doPush (s : System) (prio item : Nat) : System :=
  match s.head prio with
  | none =>
    { s with
      head := Function.update s.head prio (some item)
      bitmap := s.bitmap ||| 1#32 <<< prio
      tail := Function.update s.tail prio (some item) }
  | some _ =>
    match s.tail prio with
    | none => { s with failed := true }
    | some last =>
      { s with
        next := Function.update s.next last (some item)
        tail := Function.update s.tail prio (some item) }

/-- `rt_thread_resume` of the first one that waits; it fails for a thread that is not suspended. -/
def resume (s : System) : System :=
  match s.suspendedPopList with
  | [] => s
  | u :: rest =>
    match s.threads[u]? with
    | some ⟨.suspended timeout, returned⟩ =>
      { s with
        suspendedPopList := rest
        threads := s.threads.set u ⟨.woken timeout false, returned⟩ }
    | _ => s

/-- `_do_pop`, and the rest of the turn of the loop of `rt_prio_queue_pop`. -/
def doPop (s : System) (t : Nat) (th : Thread) (timeout : Int) : System :=
  let ffs := rtFfs s.bitmap
  if ffs = 0 then
    if timeout = 0 then s.put t { th with phase := .idle }
    else
      { s with suspendedPopList := s.suspendedPopList ++ [t] }.put t
        { th with phase := .suspended timeout }
  else
    match s.head (ffs - 1) with
    | none => { s with failed := true }
    | some item =>
      { s with
        head := Function.update s.head (ffs - 1) (s.next item)
        bitmap := if s.next item = none then s.bitmap &&& ~~~(1#32 <<< (ffs - 1)) else s.bitmap
        }.put t { th with phase := .fetching item }

/-- The next step of a thread; `none` if it is in no call, or waits. -/
def go (s : System) (t : Nat) (th : Thread) : Option System :=
  match th.phase with
  | .idle => none
  | .allocating _ _ => none
  | .copying prio data item =>
    some ({ s with data := Function.update s.data item data }.put t
      { th with phase := .unlinking prio data item })
  | .unlinking prio data item =>
    some ({ s with next := Function.update s.next item none }.put t
      { th with phase := .pushing prio data item })
  | .pushing prio _ item => some ((s.doPush prio item).put t { th with phase := .idle }).resume
  | .popping timeout => some (s.doPop t th timeout)
  | .suspended _ => none
  | .woken timeout expired =>
    some (s.put t { th with phase := if expired then .idle else .popping timeout })
  | .fetching item => some (s.put t { th with phase := .freeing item (s.data item) })
  | .freeing item data =>
    some ({ s with owned := s.owned.erase item }.put t
      { phase := .idle, returned := th.returned ++ [data] })

/-- A push of a priority that there is not fails at once. -/
def callPush (s : System) (t : Nat) (th : Thread) (prio : Nat) (data : Bytes) : Option System :=
  if th.phase = .idle then
    if rtPrioQueuePrioMax ≤ prio then some s
    else some (s.put t { th with phase := .allocating prio data })
  else none

/-- What `rt_mp_alloc` returns: a block that nobody has, or `RT_NULL`. -/
def alloc (s : System) (t : Nat) (th : Thread) (block : Option Nat) : Option System :=
  match th.phase with
  | .allocating prio data =>
    match block with
    | none => some (s.put t { th with phase := .idle })
    | some item =>
      if item ∈ s.owned then none
      else some ({ s with owned := item :: s.owned }.put t
        { th with phase := .copying prio data item })
  | _ => none

/-- The time of a thread that waits runs out. -/
def expire (s : System) (t : Nat) (th : Thread) : Option System :=
  match th.phase with
  | .suspended timeout =>
    if 0 < timeout then
      some ({ s with suspendedPopList := s.suspendedPopList.erase t }.put t
        { th with phase := .woken timeout true })
    else none
  | _ => none

def step (s : System) : Event → Option System
  | .push t prio data => s.threads[t]?.bind fun th => s.callPush t th prio data
  | .pop t timeout =>
    s.threads[t]?.bind fun th =>
      if th.phase = .idle then some (s.put t { th with phase := .popping timeout }) else none
  | .alloc t block => s.threads[t]?.bind fun th => s.alloc t th block
  | .go t => s.threads[t]?.bind (s.go t)
  | .timeout t => s.threads[t]?.bind (s.expire t)

end System

/-! ## What the queue is for -/

/-- A priority queue of what has been pushed, what has been popped from it for each thread, and the
pushes that have been called and have not taken place, by the arguments of the calls. -/
structure Spec where
  queue : Nat → List Bytes := fun _ => []
  given : Nat → List Bytes := fun _ => []
  pending : Nat → Option (Nat × Bytes) := fun _ => none

namespace Spec

def setPending (sp : Spec) (t : Nat) (call : Option (Nat × Bytes)) : Spec :=
  { sp with pending := Function.update sp.pending t call }

/-- What the thread has been called to push is pushed. -/
def push (sp : Spec) (t : Nat) : Spec :=
  match sp.pending t with
  | none => sp
  | some (prio, data) =>
    { sp.setPending t none with queue := Lib.PriorityQueue.push sp.queue prio data }

def pop (sp : Spec) (t : Nat) : Spec :=
  match Lib.PriorityQueue.pop rtPrioQueuePrioMax sp.queue with
  | none => sp
  | some (data, queue) =>
    { sp with
      queue
      given := Function.update sp.given t (sp.given t ++ [data]) }

/-- A push takes place where the thread does `_do_push`, and a pop where it does `_do_pop`. -/
def follow (sp : Spec) (t : Nat) : Phase → Spec
  | .pushing _ _ _ => sp.push t
  | .popping _ => sp.pop t
  | _ => sp

/-- A push of a priority that there is waits for a block, and fails if it gets none. -/
def call (sp : Spec) : Event → Spec
  | .push t prio data =>
    if prio < rtPrioQueuePrioMax then sp.setPending t (some (prio, data)) else sp
  | .alloc t none => sp.setPending t none
  | _ => sp

end Spec

/-- The queue, and the priority queue that it is to be. -/
structure Pair where
  sys : System
  spec : Spec := {}

namespace Pair

def step (c : Pair) (e : Event) : Option Pair :=
  (c.sys.step e).map fun sys =>
    { sys
      spec :=
        match e with
        | .go t => (c.sys.threads[t]?.map fun th => c.spec.follow t th.phase).getD c.spec
        | e => c.spec.call e }

/-- `n` threads; what is in the blocks is left open. -/
def start (n : Nat) (data : Nat → Bytes) : Pair where
  sys := { data, threads := List.replicate n {} }

end Pair

/-- What the pop of a thread has taken and not returned yet. -/
def Phase.inHand (data : Nat → Bytes) : Phase → List Bytes
  | .fetching item => [data item]
  | .freeing _ bytes => [bytes]
  | _ => []

/-- What is still to be pushed. -/
def Phase.pending : Phase → Option (Nat × Bytes)
  | .allocating prio data => some (prio, data)
  | .copying prio data _ | .unlinking prio data _ | .pushing prio data _ => some (prio, data)
  | _ => none

/-- The block that a thread has. -/
def Phase.block : Phase → Option Nat
  | .copying _ _ item | .unlinking _ _ item | .pushing _ _ item => some item
  | .fetching item | .freeing item _ => some item
  | _ => none

structure Pair.Agrees (c : Pair) : Prop where
  asserted : c.sys.failed = false
  /-- The lists are disjoint, and hold what the queue holds. -/
  lists : ∃ items : List (List Nat), items.length = rtPrioQueuePrioMax ∧
    (∀ p l, items[p]? = some l → Chain c.sys.next (c.sys.head p) l ∧
      l.map c.sys.data = c.spec.queue p) ∧ items.flatten.Nodup
  bitmap : ∀ p < rtPrioQueuePrioMax,
    c.sys.bitmap.getLsbD p = true ↔ c.sys.head p ≠ none
  /-- Every pop has returned, or is to return, what was popped for it. -/
  returned : ∀ t th, c.sys.threads[t]? = some th →
    c.spec.given t = th.returned ++ th.phase.inHand c.sys.data
  /-- A push that got a block has taken place when it returns. -/
  performed : ∀ (t : Nat) (th : Thread), c.sys.threads[t]? = some th → th.phase = .idle →
    c.spec.pending t = none

/-! ## The invariant -/

/-- What a push has done to its block. -/
def Thread.Fits (s : System) (th : Thread) : Prop :=
  match th.phase with
  | .allocating prio _ | .copying prio _ _ => prio < rtPrioQueuePrioMax
  | .unlinking prio data item => prio < rtPrioQueuePrioMax ∧ s.data item = data
  | .pushing prio data item =>
    prio < rtPrioQueuePrioMax ∧ s.data item = data ∧ s.next item = none
  | _ => True

/-- How often a thread has a block. -/
def Thread.holds (a : Nat) (th : Thread) : Nat := if th.phase.block = some a then 1 else 0

/-- How often a block is in a list or in the hands of a thread. -/
def uses (items : List (List Nat)) (threads : List Thread) (a : Nat) : Nat :=
  (items.map (List.count a)).sum + (threads.map (Thread.holds a)).sum

structure Pair.Inv (c : Pair) (items : List (List Nat)) : Prop where
  asserted : c.sys.failed = false
  length : items.length = rtPrioQueuePrioMax
  chain : ∀ p l, items[p]? = some l → Chain c.sys.next (c.sys.head p) l
  bytes : ∀ p l, items[p]? = some l → l.map c.sys.data = c.spec.queue p
  tail : ∀ p l, items[p]? = some l → ∀ a, l.getLast? = some a → c.sys.tail p = some a
  bit : ∀ p l, items[p]? = some l → (c.sys.bitmap.getLsbD p = true ↔ l ≠ [])
  uses : ∀ a, uses items c.sys.threads a ≤ (decide (a ∈ c.sys.owned)).toNat
  fits : ∀ (t : Nat) (th : Thread), c.sys.threads[t]? = some th → th.Fits c.sys
  given : ∀ t th, c.sys.threads[t]? = some th →
    c.spec.given t = th.returned ++ th.phase.inHand c.sys.data
  pending : ∀ (t : Nat) (th : Thread), c.sys.threads[t]? = some th →
    c.spec.pending t = th.phase.pending

namespace Pair
variable {c : Pair} {items : List (List Nat)} {t : Nat} {th th' : Thread} {a : Nat}

theorem holds_of_block (hblock : th.phase.block = some a) : th.holds a = 1 := if_pos hblock

/-- A block that a thread has is in no list, and no other thread has it. -/
theorem Inv.sole (h : c.Inv items) (ht : c.sys.threads[t]? = some th)
    (hblock : th.phase.block = some a) :
    (∀ l ∈ items, a ∉ l) ∧
      ∀ (u : Nat) (thu : Thread), u ≠ t → c.sys.threads[u]? = some thu →
        thu.phase.block ≠ some a := by
  have hone := h.uses a
  have hle : (decide (a ∈ c.sys.owned)).toNat ≤ 1 := Bool.toNat_le _
  have hth := holds_of_block hblock
  unfold PrioQueue.uses at hone
  constructor
  · intro l hl hmem
    obtain ⟨p, hp⟩ := List.mem_iff_getElem?.mp hl
    have hcount := le_sum_of_get hp (List.count a)
    have hpos := List.count_pos_iff.mpr hmem
    have hsum := le_sum_of_get ht (Thread.holds a)
    omega
  · intro u thu hne hu hother
    have hboth := add_le_sum_of_get ht hu (Ne.symm hne) (Thread.holds a)
    have hthu := holds_of_block hother
    omega

theorem Inv.list_nodup (h : c.Inv items) {p : Nat} {l : List Nat} (hp : items[p]? = some l) :
    l.Nodup := by
  refine List.nodup_iff_count_le_one.mpr fun a => ?_
  have hone := h.uses a
  have hle : (decide (a ∈ c.sys.owned)).toNat ≤ 1 := Bool.toNat_le _
  have hcount := le_sum_of_get hp (List.count a)
  unfold PrioQueue.uses at hone
  omega

/-- A block of a list is in no other list, and no thread has it. -/
theorem Inv.listed (h : c.Inv items) {p : Nat} {l : List Nat} (hp : items[p]? = some l)
    (hmem : a ∈ l) : (∀ q l', q ≠ p → items[q]? = some l' → a ∉ l') ∧
      ∀ (u : Nat) (thu : Thread), c.sys.threads[u]? = some thu → thu.phase.block ≠ some a := by
  have hone := h.uses a
  have hle : (decide (a ∈ c.sys.owned)).toNat ≤ 1 := Bool.toNat_le _
  have hcount := List.count_pos_iff.mpr hmem
  unfold PrioQueue.uses at hone
  constructor
  · intro q l' hne hq hmem'
    have hboth := add_le_sum_of_get hp hq (Ne.symm hne) (List.count a)
    have hcount' := List.count_pos_iff.mpr hmem'
    omega
  · intro u thu hu hother
    have hsum := le_sum_of_get hu (Thread.holds a)
    have hlist := le_sum_of_get hp (List.count a)
    have hthu := holds_of_block hother
    omega

theorem uses_set (items : List (List Nat)) {threads : List Thread} (ht : threads[t]? = some th)
    (th' : Thread) (a : Nat) :
    uses items (threads.set t th') a + th.holds a = uses items threads a + th'.holds a := by
  have hsum := sum_set ht th' (Thread.holds a)
  unfold uses
  omega

/-- What a thread's push has done is seen in its block. -/
theorem fits_congr {s s' : System} (h : th.Fits s)
    (hsame : ∀ b, th.phase.block = some b → s'.next b = s.next b ∧ s'.data b = s.data b) :
    th.Fits s' := by
  unfold Thread.Fits at h ⊢
  cases hphase : th.phase with
  | unlinking prio data item =>
    rw [hphase] at h
    obtain ⟨-, hdata⟩ := hsame item (by rw [hphase]; rfl)
    exact ⟨h.1, hdata.trans h.2⟩
  | pushing prio data item =>
    rw [hphase] at h
    obtain ⟨hnext, hdata⟩ := hsame item (by rw [hphase]; rfl)
    exact ⟨h.1, hdata.trans h.2.1, hnext.trans h.2.2⟩
  | _ =>
    rw [hphase] at h
    exact h

theorem inHand_congr {data data' : Nat → Bytes} {phase : Phase}
    (hsame : ∀ b, phase.block = some b → data' b = data b) :
    phase.inHand data' = phase.inHand data := by
  cases phase with
  | fetching item => exact congrArg (fun d => [d]) (hsame item rfl)
  | _ => rfl

/-- A thread goes on, and what it changes is in no list and no other thread's. -/
theorem Inv.thread (h : c.Inv items) (ht : c.sys.threads[t]? = some th) {next : Nat → Option Nat}
    {data : Nat → Bytes} {owned suspendedPopList : List Nat} {spec : Spec}
    (hlists : ∀ l ∈ items, ∀ b ∈ l, next b = c.sys.next b ∧ data b = c.sys.data b)
    (hothers : ∀ (u : Nat) (thu : Thread), u ≠ t → c.sys.threads[u]? = some thu →
      ∀ b, thu.phase.block = some b → next b = c.sys.next b ∧ data b = c.sys.data b)
    (huses : ∀ a, th'.holds a + (decide (a ∈ c.sys.owned)).toNat ≤
      th.holds a + (decide (a ∈ owned)).toNat)
    (hfits : th'.Fits { c.sys with next, data }) (hqueue : spec.queue = c.spec.queue)
    (hgiven : spec.given t = th'.returned ++ th'.phase.inHand data)
    (hpending : spec.pending t = th'.phase.pending)
    (hspec : ∀ u, u ≠ t → spec.given u = c.spec.given u ∧ spec.pending u = c.spec.pending u) :
    Inv ⟨{ c.sys with next, data, owned, suspendedPopList }.put t th', spec⟩ items where
  asserted := h.asserted
  length := h.length
  chain := fun p l hp => (h.chain p l hp).congr fun b hb =>
    (hlists l (List.mem_of_getElem? hp) b hb).1
  bytes := fun p l hp => by
    change l.map data = spec.queue p
    rw [hqueue, ← h.bytes p l hp]
    exact List.map_congr_left fun b hb => (hlists l (List.mem_of_getElem? hp) b hb).2
  tail := h.tail
  bit := h.bit
  uses := fun a => by
    have hset := uses_set items ht th' a
    have hone := h.uses a
    have hle := huses a
    change PrioQueue.uses items (c.sys.threads.set t th') a ≤ (decide (a ∈ owned)).toNat
    omega
  fits := fun u thu hu => by
    rcases (get_set_iff ht).mp hu with ⟨rfl, rfl⟩ | ⟨hne, hu⟩
    · exact fits_congr hfits fun _ _ => ⟨rfl, rfl⟩
    · exact fits_congr (h.fits u thu hu) (hothers u thu hne hu)
  given := fun u thu hu => by
    rcases (get_set_iff ht).mp hu with ⟨rfl, rfl⟩ | ⟨hne, hu⟩
    · exact hgiven
    · refine (hspec u hne).1.trans ((h.given u thu hu).trans ?_)
      exact congrArg _ (inHand_congr fun b hb => (hothers u thu hne hu b hb).2).symm
  pending := fun u thu hu => by
    rcases (get_set_iff ht).mp hu with ⟨rfl, rfl⟩ | ⟨hne, hu⟩
    · exact hpending
    · exact (hspec u hne).2.trans (h.pending u thu hu)

/-- A thread goes on and changes nothing. -/
theorem Inv.move (h : c.Inv items) (ht : c.sys.threads[t]? = some th)
    {owned suspendedPopList : List Nat}
    (huses : ∀ a, th'.holds a + (decide (a ∈ c.sys.owned)).toNat ≤
      th.holds a + (decide (a ∈ owned)).toNat)
    (hfits : th'.Fits c.sys)
    (hgiven : c.spec.given t = th'.returned ++ th'.phase.inHand c.sys.data)
    (hpending : c.spec.pending t = th'.phase.pending) :
    Inv ⟨{ c.sys with owned, suspendedPopList }.put t th', c.spec⟩ items :=
  h.thread ht (fun _ _ _ _ => ⟨rfl, rfl⟩) (fun _ _ _ _ _ _ => ⟨rfl, rfl⟩) huses hfits rfl hgiven
    hpending fun _ _ => ⟨rfl, rfl⟩

/-- A push is called, or gets no block. -/
theorem Inv.call (h : c.Inv items) (ht : c.sys.threads[t]? = some th) {phase : Phase}
    {call : Option (Nat × Bytes)} (hholds : th.phase.block = none) (hblock : phase.block = none)
    (hhand : phase.inHand c.sys.data = th.phase.inHand c.sys.data)
    (hpending : phase.pending = call) (hfits : Thread.Fits c.sys { th with phase }) :
    Inv ⟨c.sys.put t { th with phase }, c.spec.setPending t call⟩ items := by
  refine h.thread ht (fun _ _ _ _ => ⟨rfl, rfl⟩) (fun _ _ _ _ _ _ => ⟨rfl, rfl⟩) (fun a => ?_)
    hfits rfl ?_ ?_ fun u hne => ⟨rfl, Function.update_of_ne hne _ _⟩
  · simp [Thread.holds, hholds, hblock]
  · rw [hhand]
    exact h.given t th ht
  · exact (Function.update_self _ _ _).trans hpending.symm

/-! ## A push -/

theorem Inv.callPush (h : c.Inv items) (ht : c.sys.threads[t]? = some th) {prio : Nat}
    {data : Bytes} {s' : System} (hstep : c.sys.callPush t th prio data = some s') :
    Inv ⟨s', c.spec.call (.push t prio data)⟩ items := by
  unfold System.callPush at hstep
  unfold Spec.call
  dsimp only
  split at hstep
  · rename_i hphase
    split at hstep
    · rename_i hprio
      obtain rfl := Option.some.inj hstep
      rw [if_neg (Nat.not_lt_of_le hprio)]
      exact h
    · rename_i hprio
      obtain rfl := Option.some.inj hstep
      rw [if_pos (Nat.lt_of_not_le hprio)]
      exact h.call ht (by rw [hphase]; rfl) rfl (by rw [hphase]; rfl) rfl (Nat.lt_of_not_le hprio)
  · cases hstep

theorem Inv.alloc (h : c.Inv items) (ht : c.sys.threads[t]? = some th) {block : Option Nat}
    {s' : System} (hstep : c.sys.alloc t th block = some s') :
    Inv ⟨s', c.spec.call (.alloc t block)⟩ items := by
  have hgiven := h.given t th ht
  have hpending := h.pending t th ht
  have hfits := h.fits t th ht
  unfold System.alloc at hstep
  split at hstep
  · rename_i prio data hphase
    unfold Thread.Fits at hfits
    rw [hphase] at hgiven hpending hfits
    split at hstep
    · obtain rfl := Option.some.inj hstep
      exact h.call ht (by rw [hphase]; rfl) rfl (by rw [hphase]; rfl) rfl trivial
    · rename_i item
      split at hstep
      · cases hstep
      · rename_i hnew
        obtain rfl := Option.some.inj hstep
        refine h.move ht (fun a => ?_) hfits hgiven hpending
        by_cases ha : a = item
        · subst ha
          simp [Thread.holds, hphase, Phase.block, hnew]
        · simp [Thread.holds, hphase, Phase.block, ha, Ne.symm ha]
  · cases hstep

/-- The bytes are copied. -/
theorem Inv.copy (h : c.Inv items) (ht : c.sys.threads[t]? = some th) {prio item : Nat}
    {data : Bytes} (hphase : th.phase = .copying prio data item) :
    Inv ⟨{ c.sys with data := Function.update c.sys.data item data }.put t
      { th with phase := .unlinking prio data item }, c.spec⟩ items := by
  have hgiven := h.given t th ht
  have hpending := h.pending t th ht
  have hfits := h.fits t th ht
  unfold Thread.Fits at hfits
  rw [hphase] at hgiven hpending hfits
  obtain ⟨hlists, hothers⟩ := h.sole ht (a := item) (by rw [hphase]; rfl)
  refine h.thread ht (fun l hl b hb => ⟨rfl, ?_⟩) (fun u thu hne hu b hb => ⟨rfl, ?_⟩) (fun a => ?_)
    ⟨hfits, Function.update_self _ _ _⟩ rfl hgiven hpending fun _ _ => ⟨rfl, rfl⟩
  · exact Function.update_of_ne (ne_of_mem_of_not_mem hb (hlists l hl)) _ _
  · refine Function.update_of_ne ?_ _ _
    rintro rfl
    exact hothers u thu hne hu hb
  · simp [Thread.holds, hphase, Phase.block]

theorem Inv.unlink (h : c.Inv items) (ht : c.sys.threads[t]? = some th) {prio item : Nat}
    {data : Bytes} (hphase : th.phase = .unlinking prio data item) :
    Inv ⟨{ c.sys with next := Function.update c.sys.next item none }.put t
      { th with phase := .pushing prio data item }, c.spec⟩ items := by
  have hgiven := h.given t th ht
  have hpending := h.pending t th ht
  have hfits := h.fits t th ht
  unfold Thread.Fits at hfits
  rw [hphase] at hgiven hpending hfits
  obtain ⟨hlists, hothers⟩ := h.sole ht (a := item) (by rw [hphase]; rfl)
  refine h.thread ht (fun l hl b hb => ⟨?_, rfl⟩) (fun u thu hne hu b hb => ⟨?_, rfl⟩) (fun a => ?_)
    ⟨hfits.1, hfits.2, Function.update_self _ _ _⟩ rfl hgiven hpending fun _ _ => ⟨rfl, rfl⟩
  · exact Function.update_of_ne (ne_of_mem_of_not_mem hb (hlists l hl)) _ _
  · refine Function.update_of_ne ?_ _ _
    rintro rfl
    exact hothers u thu hne hu hb
  · simp [Thread.holds, hphase, Phase.block]

/-- A list changes, and the thread that changes it goes on. -/
theorem Inv.relist (h : c.Inv items) (ht : c.sys.threads[t]? = some th) {p : Nat} {l l' : List Nat}
    (hp : items[p]? = some l) {bitmap : BitVec 32} {head tail next : Nat → Option Nat} {spec : Spec}
    (hchain : Chain next (head p) l') (hbytes : l'.map c.sys.data = spec.queue p)
    (htail : ∀ a, l'.getLast? = some a → tail p = some a)
    (hbit : bitmap.getLsbD p = true ↔ l' ≠ [])
    (hothers : ∀ q < rtPrioQueuePrioMax, q ≠ p → head q = c.sys.head q ∧ tail q = c.sys.tail q ∧
      bitmap.getLsbD q = c.sys.bitmap.getLsbD q ∧ spec.queue q = c.spec.queue q)
    (hnext : ∀ b, b ∉ l → next b = c.sys.next b)
    (huses : ∀ a, l'.count a + th'.holds a = l.count a + th.holds a)
    (hfits : th'.Fits { c.sys with next })
    (hgiven : spec.given t = th'.returned ++ th'.phase.inHand c.sys.data)
    (hpending : spec.pending t = th'.phase.pending)
    (hspec : ∀ u, u ≠ t → spec.given u = c.spec.given u ∧ spec.pending u = c.spec.pending u) :
    Inv ⟨{ c.sys with bitmap, head, tail, next }.put t th', spec⟩ (items.set p l') := by
  have hrange : ∀ {q : Nat} {k : List Nat}, items[q]? = some k → q < rtPrioQueuePrioMax :=
    fun hq => h.length ▸ (List.getElem?_eq_some_iff.mp hq).1
  refine ⟨h.asserted, ?_, ?_, ?_, ?_, ?_, ?_, ?_, ?_, ?_⟩
  · rw [List.length_set]
    exact h.length
  · intro q k hq
    rcases (get_set_iff hp).mp hq with ⟨rfl, rfl⟩ | ⟨hne, hq⟩
    · exact hchain
    · obtain ⟨hhead, -, -, -⟩ := hothers q (hrange hq) hne
      change Chain next (head q) k
      rw [hhead]
      refine (h.chain q k hq).congr fun b hb => hnext b fun hl => ?_
      exact (h.listed hp hl).1 q k hne hq hb
  · intro q k hq
    rcases (get_set_iff hp).mp hq with ⟨rfl, rfl⟩ | ⟨hne, hq⟩
    · exact hbytes
    · obtain ⟨-, -, -, hqueue⟩ := hothers q (hrange hq) hne
      exact (h.bytes q k hq).trans hqueue.symm
  · intro q k hq a ha
    rcases (get_set_iff hp).mp hq with ⟨rfl, rfl⟩ | ⟨hne, hq⟩
    · exact htail a ha
    · obtain ⟨-, hlast, -, -⟩ := hothers q (hrange hq) hne
      exact hlast.trans (h.tail q k hq a ha)
  · intro q k hq
    rcases (get_set_iff hp).mp hq with ⟨rfl, rfl⟩ | ⟨hne, hq⟩
    · exact hbit
    · obtain ⟨-, -, hsame, -⟩ := hothers q (hrange hq) hne
      change bitmap.getLsbD q = true ↔ k ≠ []
      rw [hsame]
      exact h.bit q k hq
  · intro a
    have hone := h.uses a
    have hlist := sum_set hp l' (List.count a)
    have hthread := sum_set ht th' (Thread.holds a)
    have hsame := huses a
    unfold PrioQueue.uses at hone ⊢
    change ((items.set p l').map (List.count a)).sum +
      ((c.sys.threads.set t th').map (Thread.holds a)).sum ≤ (decide (a ∈ c.sys.owned)).toNat
    omega
  · intro u thu hu
    rcases (get_set_iff ht).mp hu with ⟨rfl, rfl⟩ | ⟨hne, hu⟩
    · exact fits_congr hfits fun _ _ => ⟨rfl, rfl⟩
    · refine fits_congr (h.fits u thu hu) fun b hb => ⟨hnext b fun hl => ?_, rfl⟩
      exact (h.listed hp hl).2 u thu hu hb
  · intro u thu hu
    rcases (get_set_iff ht).mp hu with ⟨rfl, rfl⟩ | ⟨hne, hu⟩
    · exact hgiven
    · exact (hspec u hne).1.trans (h.given u thu hu)
  · intro u thu hu
    rcases (get_set_iff ht).mp hu with ⟨rfl, rfl⟩ | ⟨hne, hu⟩
    · exact hpending
    · exact (hspec u hne).2.trans (h.pending u thu hu)

theorem getLsbD_set (bitmap : BitVec 32) (p : Nat) {q : Nat} (hq : q < rtPrioQueuePrioMax) :
    (bitmap ||| 1#32 <<< p).getLsbD q = (bitmap.getLsbD q || decide (q = p)) := by
  rw [BitVec.getLsbD_or, getLsbD_bit p (show q < 32 from hq)]

theorem getLsbD_clear (bitmap : BitVec 32) (p : Nat) {q : Nat} (hq : q < rtPrioQueuePrioMax) :
    (bitmap &&& ~~~(1#32 <<< p)).getLsbD q = (bitmap.getLsbD q && !decide (q = p)) := by
  have hlt : q < 32 := hq
  rw [BitVec.getLsbD_and, BitVec.getLsbD_not, getLsbD_bit p hlt, decide_eq_true hlt, Bool.true_and]

theorem push_eq {sp : Spec} {prio : Nat} {data : Bytes} (h : sp.pending t = some (prio, data)) :
    sp.push t = { sp.setPending t none with
      queue := Lib.PriorityQueue.push sp.queue prio data } := by
  unfold Spec.push
  rw [h]

theorem Inv.get (h : c.Inv items) {p : Nat} (hp : p < rtPrioQueuePrioMax) :
    ∃ l, items[p]? = some l := by
  have hlt : p < items.length := by
    rw [h.length]
    exact hp
  exact ⟨items[p], List.getElem?_eq_getElem hlt⟩

/-- `_do_push` -/
theorem Inv.doPush (h : c.Inv items) (ht : c.sys.threads[t]? = some th) {prio item : Nat}
    {data : Bytes} (hphase : th.phase = .pushing prio data item) :
    ∃ items', Inv ⟨(c.sys.doPush prio item).put t { th with phase := .idle },
      c.spec.push t⟩ items' := by
  have hgiven := h.given t th ht
  have hpending := h.pending t th ht
  have hfits := h.fits t th ht
  unfold Thread.Fits at hfits
  rw [hphase] at hgiven hpending hfits
  rw [push_eq hpending]
  obtain ⟨hprio, hdata, hnext⟩ := hfits
  obtain ⟨l, hl⟩ := h.get hprio
  have hnew := (h.sole ht (a := item) (by rw [hphase]; rfl)).1 l (List.mem_of_getElem? hl)
  have huses : ∀ a, (l ++ [item]).count a + Thread.holds a { th with phase := .idle } =
      l.count a + th.holds a := by
    intro a
    simp [Thread.holds, hphase, Phase.block, List.count_cons]
  have hbytes : (l ++ [item]).map c.sys.data =
      Lib.PriorityQueue.push c.spec.queue prio data prio := by
    rw [Lib.PriorityQueue.push, Function.update_self, List.map_append, h.bytes prio l hl,
      List.map_singleton, hdata]
  have hlast : ∀ a, (l ++ [item]).getLast? = some a →
      Function.update c.sys.tail prio (some item) prio = some a := by
    intro a ha
    rw [List.getLast?_concat] at ha
    rw [Function.update_self]
    exact ha
  refine ⟨items.set prio (l ++ [item]), ?_⟩
  have hhead := (h.chain prio l hl).eq_none_iff
  unfold System.doPush
  split
  · rename_i hnone
    -- the list has been empty
    obtain rfl := hhead.mp hnone
    refine h.relist ht hl ?_ hbytes hlast ?_ (fun q hq hne => ?_) (fun b hb => rfl) huses trivial
      hgiven (Function.update_self _ _ _) (fun u hu => ⟨rfl, Function.update_of_ne hu _ _⟩)
    · rw [Function.update_self]
      exact ⟨rfl, hnext⟩
    · simp [getLsbD_set _ prio hprio]
    · refine ⟨Function.update_of_ne hne _ _, Function.update_of_ne hne _ _, ?_,
        Function.update_of_ne hne _ _⟩
      simp [getLsbD_set _ prio hq, hne]
  · rename_i first hsome
    have hne : l ≠ [] := fun hnil => by
      rw [hhead.mpr hnil] at hsome
      cases hsome
    obtain ⟨last, hgetLast⟩ : ∃ last, l.getLast? = some last :=
      ⟨l.getLast hne, List.getLast?_eq_some_getLast hne⟩
    rw [h.tail prio l hl last hgetLast]
    refine h.relist ht hl ?_ hbytes hlast ?_ (fun q hq hne => ?_) (fun b hb => ?_) huses trivial
      hgiven (Function.update_self _ _ _) (fun u hu => ⟨rfl, Function.update_of_ne hu _ _⟩)
    · exact (h.chain prio l hl).append (h.list_nodup hl) hgetLast hnew hnext
    · simp [(h.bit prio l hl).mpr hne]
    · exact ⟨rfl, Function.update_of_ne hne _ _, rfl, Function.update_of_ne hne _ _⟩
    · refine Function.update_of_ne ?_ _ _
      rintro rfl
      exact hb (List.mem_of_getLast? hgetLast)

/-- The first thread that waits looks at the queue again. -/
theorem Inv.resume (h : c.Inv items) : Inv ⟨c.sys.resume, c.spec⟩ items := by
  unfold System.resume
  split
  · exact h
  · rename_i u rest hlist
    split
    · rename_i timeout returned hu
      have hgiven := h.given u _ hu
      have hpending := h.pending u _ hu
      have hwoken : Inv ⟨{ c.sys with suspendedPopList := rest }.put u
          ⟨.woken timeout false, returned⟩, c.spec⟩ items := by
        refine h.move hu (fun a => ?_) trivial hgiven hpending
        simp [Thread.holds, Phase.block]
      exact hwoken
    · exact h

/-! ## A pop -/

/-- Nothing is popped where all lists are empty. -/
theorem Inv.pop_none (h : c.Inv items) (hzero : c.sys.bitmap = 0) : c.spec.pop t = c.spec := by
  have hempty : ∀ j < rtPrioQueuePrioMax, c.spec.queue j = [] := by
    intro j hj
    obtain ⟨l, hl⟩ := h.get hj
    have hbit := h.bit j l hl
    simp only [hzero, BitVec.ofNat_eq_ofNat, BitVec.getLsbD_zero, Bool.false_eq_true, ne_eq,
      false_iff, Decidable.not_not] at hbit
    rw [← h.bytes j l hl, hbit]
    rfl
  unfold Spec.pop
  rw [Lib.PriorityQueue.pop_eq_none hempty]

/-- The first of the lowest list is popped. -/
theorem Inv.pop_some (h : c.Inv items) {p a : Nat} {rest : List Nat}
    (hlow : IsLowest c.sys.bitmap p) (hp : items[p]? = some (a :: rest)) :
    c.spec.pop t = { c.spec with
      queue := Function.update c.spec.queue p (rest.map c.sys.data)
      given := Function.update c.spec.given t (c.spec.given t ++ [c.sys.data a]) } := by
  have hrange : p < rtPrioQueuePrioMax := h.length ▸ (List.getElem?_eq_some_iff.mp hp).1
  have hempty : ∀ j < p, c.spec.queue j = [] := by
    intro j hj
    obtain ⟨l, hl⟩ := h.get (Nat.lt_trans hj hrange)
    have hbit := h.bit j l hl
    simp only [hlow.2 j hj, Bool.false_eq_true, ne_eq, false_iff, Decidable.not_not] at hbit
    rw [← h.bytes j l hl, hbit]
    rfl
  have hqueue := (h.bytes p _ hp).symm
  rw [List.map_cons] at hqueue
  unfold Spec.pop
  rw [Lib.PriorityQueue.pop_eq_some hrange hqueue hempty]

/-- `_do_pop` -/
theorem Inv.doPop (h : c.Inv items) (ht : c.sys.threads[t]? = some th) {timeout : Int}
    (hphase : th.phase = .popping timeout) :
    ∃ items', Inv ⟨c.sys.doPop t th timeout, c.spec.pop t⟩ items' := by
  have hgiven := h.given t th ht
  have hpending := h.pending t th ht
  rw [hphase] at hgiven hpending
  have hholds : ∀ a, th.holds a = 0 := by
    intro a
    simp [Thread.holds, hphase, Phase.block]
  unfold System.doPop
  by_cases hzero : c.sys.bitmap = 0
  · have hffs : rtFfs c.sys.bitmap = 0 := by
      rw [hzero]
      rfl
    rw [h.pop_none hzero]
    simp only [hffs, ↓reduceIte]
    refine ⟨items, ?_⟩
    split
    · exact h.move ht (fun a => Nat.add_le_add_right (Nat.zero_le _) _) trivial hgiven hpending
    · exact h.move ht (fun a => Nat.add_le_add_right (Nat.zero_le _) _) trivial hgiven hpending
  · obtain ⟨hpos, hlow⟩ := rtFfs_spec hzero
    simp only [Nat.ne_of_gt hpos, ↓reduceIte]
    generalize rtFfs c.sys.bitmap - 1 = p at hlow
    have hp : p < rtPrioQueuePrioMax := BitVec.lt_of_getLsbD hlow.1
    obtain ⟨l, hl⟩ := h.get hp
    obtain ⟨a, rest, rfl⟩ := List.exists_cons_of_ne_nil ((h.bit p l hl).mp hlow.1)
    obtain ⟨hhead, hrest⟩ := h.chain p _ hl
    rw [h.pop_some hlow hl, hhead]
    have hnodup := List.nodup_cons.mp (h.list_nodup hl)
    refine ⟨items.set p rest, ?_⟩
    refine h.relist ht hl ?_ ?_ (fun b hb => ?_) ?_ (fun q hq hne => ?_) (fun b hb => rfl)
      (fun b => ?_) trivial ?_ hpending (fun u hu => ⟨Function.update_of_ne hu _ _, rfl⟩)
    · rw [Function.update_self]
      exact hrest
    · exact (Function.update_self p (rest.map c.sys.data) c.spec.queue).symm
    · refine h.tail p _ hl b ?_
      rw [List.getLast?_cons, hb]
      rfl
    · have hnone := hrest.eq_none_iff
      split
      · simp_all [getLsbD_clear _ p hp]
      · simp_all [hlow.1]
    · refine ⟨Function.update_of_ne hne _ _, rfl, ?_, Function.update_of_ne hne _ _⟩
      split
      · simp [getLsbD_clear _ p hq, hne]
      · rfl
    · rw [hholds]
      simp [Thread.holds, Phase.block, List.count_cons]
    · refine (Function.update_self _ _ _).trans ?_
      simp [hgiven, Phase.inHand]

/-- A thread that waits, or has its item, goes on. -/
theorem Inv.free (h : c.Inv items) (ht : c.sys.threads[t]? = some th) {item : Nat} {data : Bytes}
    (hphase : th.phase = .freeing item data) :
    Inv ⟨{ c.sys with owned := c.sys.owned.erase item }.put t
      { phase := .idle, returned := th.returned ++ [data] }, c.spec⟩ items := by
  have hgiven := h.given t th ht
  have hpending := h.pending t th ht
  rw [hphase] at hgiven hpending
  have hone : th.holds item = 1 := holds_of_block (by rw [hphase]; rfl)
  refine h.move ht (fun a => ?_) trivial (hgiven.trans (List.append_nil _).symm) hpending
  by_cases ha : a = item
  · subst ha
    have hle : (decide (a ∈ c.sys.owned)).toNat ≤ 1 := Bool.toNat_le _
    rw [hone]
    exact Nat.le_trans (Nat.add_le_add_left hle _) (Nat.le_add_right _ _)
  · rw [decide_eq_decide.mpr (List.mem_erase_of_ne ha)]
    exact Nat.add_le_add_right (Nat.zero_le _) _

theorem Inv.expire (h : c.Inv items) (ht : c.sys.threads[t]? = some th) {s' : System}
    (hstep : c.sys.expire t th = some s') : Inv ⟨s', c.spec⟩ items := by
  have hgiven := h.given t th ht
  have hpending := h.pending t th ht
  unfold System.expire at hstep
  split at hstep
  · rename_i timeout hphase
    rw [hphase] at hgiven hpending
    split at hstep
    · obtain rfl := Option.some.inj hstep
      refine h.move ht (fun a => ?_) trivial hgiven hpending
      simp [Thread.holds, hphase, Phase.block]
    · cases hstep
  · cases hstep

/-! ## Runs -/

theorem Inv.go (h : c.Inv items) (ht : c.sys.threads[t]? = some th) {s' : System}
    (hstep : c.sys.go t th = some s') :
    ∃ items', Inv ⟨s', c.spec.follow t th.phase⟩ items' := by
  have hgiven := h.given t th ht
  have hpending := h.pending t th ht
  unfold System.go at hstep
  unfold Spec.follow
  cases hphase : th.phase with
  | idle | allocating _ _ | suspended _ =>
    rw [hphase] at hstep
    cases hstep
  | copying prio data item =>
    rw [hphase] at hstep
    obtain rfl := Option.some.inj hstep
    exact ⟨items, h.copy ht hphase⟩
  | unlinking prio data item =>
    rw [hphase] at hstep
    obtain rfl := Option.some.inj hstep
    exact ⟨items, h.unlink ht hphase⟩
  | pushing prio data item =>
    rw [hphase] at hstep
    obtain rfl := Option.some.inj hstep
    obtain ⟨items', hpush⟩ := h.doPush ht hphase
    exact ⟨items', hpush.resume⟩
  | popping timeout =>
    rw [hphase] at hstep
    obtain rfl := Option.some.inj hstep
    exact h.doPop ht hphase
  | woken timeout expired =>
    rw [hphase] at hstep hgiven hpending
    obtain rfl := Option.some.inj hstep
    refine ⟨items, h.move ht (fun a => ?_) ?_ ?_ ?_⟩
    · cases expired <;> simp [Thread.holds, hphase, Phase.block]
    · cases expired <;> trivial
    · cases expired <;> exact hgiven
    · cases expired <;> exact hpending
  | fetching item =>
    rw [hphase] at hstep hgiven hpending
    obtain rfl := Option.some.inj hstep
    refine ⟨items, h.move ht (fun a => ?_) trivial hgiven hpending⟩
    simp [Thread.holds, hphase, Phase.block]
  | freeing item data =>
    rw [hphase] at hstep
    obtain rfl := Option.some.inj hstep
    exact ⟨items, h.free ht hphase⟩

theorem Inv.step (h : c.Inv items) {e : Event} {c' : Pair} (hstep : c.step e = some c') :
    ∃ items', c'.Inv items' := by
  obtain ⟨s', hsys, rfl⟩ := Option.map_eq_some_iff.mp hstep
  cases e with
  | push t prio data =>
    obtain ⟨th, ht, hcall⟩ := Option.bind_eq_some_iff.mp hsys
    exact ⟨items, h.callPush ht hcall⟩
  | pop t timeout =>
    obtain ⟨th, ht, hcall⟩ := Option.bind_eq_some_iff.mp hsys
    split at hcall
    · rename_i hphase
      have hgiven := h.given t th ht
      have hpending := h.pending t th ht
      rw [hphase] at hgiven hpending
      obtain rfl := Option.some.inj hcall
      refine ⟨items, h.move ht (fun a => ?_) trivial hgiven hpending⟩
      simp [Thread.holds, hphase, Phase.block]
    · cases hcall
  | alloc t block =>
    obtain ⟨th, ht, halloc⟩ := Option.bind_eq_some_iff.mp hsys
    exact ⟨items, h.alloc ht halloc⟩
  | go t =>
    obtain ⟨th, ht, hgo⟩ := Option.bind_eq_some_iff.mp hsys
    simp only [ht, Option.map_some, Option.getD_some]
    exact h.go ht hgo
  | timeout t =>
    obtain ⟨th, ht, hexpire⟩ := Option.bind_eq_some_iff.mp hsys
    exact ⟨items, h.expire ht hexpire⟩

theorem inv_start (n : Nat) (data : Nat → Bytes) :
    (start n data).Inv (List.replicate rtPrioQueuePrioMax []) := by
  have hnil : ∀ {p : Nat} {l : List Nat},
      (List.replicate rtPrioQueuePrioMax ([] : List Nat))[p]? = some l → l = [] :=
    fun hp => List.eq_of_mem_replicate (List.mem_of_getElem? hp)
  have hthread : ∀ {t : Nat} {th : Thread}, (List.replicate n ({} : Thread))[t]? = some th →
      th = {} := fun ht => List.eq_of_mem_replicate (List.mem_of_getElem? ht)
  refine ⟨rfl, List.length_replicate, ?_, ?_, ?_, ?_, ?_, ?_, ?_, ?_⟩
  · intro p l hp
    obtain rfl := hnil hp
    rfl
  · intro p l hp
    obtain rfl := hnil hp
    rfl
  · intro p l hp a ha
    obtain rfl := hnil hp
    cases ha
  · intro p l hp
    obtain rfl := hnil hp
    simp [start]
  · intro a
    simp [PrioQueue.uses, start, Thread.holds, Phase.block]
  · intro t th ht
    obtain rfl := hthread ht
    trivial
  · intro t th ht
    obtain rfl := hthread ht
    rfl
  · intro t th ht
    obtain rfl := hthread ht
    rfl

/-- What is asked of the queue. -/
theorem Inv.agrees (h : c.Inv items) : c.Agrees where
  asserted := h.asserted
  lists := by
    refine ⟨items, h.length, fun p l hp => ⟨h.chain p l hp, h.bytes p l hp⟩, ?_⟩
    refine List.nodup_iff_count_le_one.mpr fun a => ?_
    have hone := h.uses a
    have hle : (decide (a ∈ c.sys.owned)).toNat ≤ 1 := Bool.toNat_le _
    unfold PrioQueue.uses at hone
    rw [List.count_flatten]
    omega
  bitmap := fun p hp => by
    obtain ⟨l, hl⟩ := h.get hp
    rw [h.bit p l hl, ne_eq, ne_eq, (h.chain p l hl).eq_none_iff]
  returned := h.given
  performed := fun t th ht hidle => by
    rw [h.pending t th ht, hidle]
    rfl

end Pair

end ControlRTT.Components.PrioQueue

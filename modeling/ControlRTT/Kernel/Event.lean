import Mathlib.Logic.Function.Basic
import ControlRTT.Lib.Runs
import ControlRTT.Kernel.WaitLists

/-! # Event objects (ipc.c)

A thread waits until all bits of a set, or one of them, have been sent. A send offers
the event's bits to the waiting threads in turn, and a thread may clear the bits that it
was waiting for. No thread waits for bits that are there, and a thread that a send
resumes gets those of its bits that the send found (`noLostWakeup`). -/
namespace ControlRTT.Kernel.Event
open ControlRTT.Lib.Runs ControlRTT.Kernel.Thread

/-- `RT_EVENT_FLAG_AND`, `RT_EVENT_FLAG_OR` and `RT_EVENT_FLAG_CLEAR`. -/
def flagAnd : BitVec 8 := 0x01
def flagOr : BitVec 8 := 0x02
def flagClear : BitVec 8 := 0x04

/-- The arguments of a call of `rt_event_recv`, less its timeout. -/
structure Call (Event : Type) where
  event : Event
  set : BitVec 32
  option : BitVec 8

/-- The events, the `event_set` and `event_info` of the threads, and the calls that have
not returned. -/
structure System (Event Thread : Type) where
  flag : Event → IpcFlag
  set : Event → BitVec 32 := fun _ => 0
  eventSet : Thread → BitVec 32 := fun _ => 0
  eventInfo : Thread → BitVec 8 := fun _ => 0
  lists : WaitLists Event Thread
  call : Thread → Option (Call Event) := fun _ => none

/-- With neither flag an assertion fails; where assertions are off nothing satisfies it. -/
def Satisfied (option : BitVec 8) (wanted set : BitVec 32) : Prop :=
  if option &&& flagAnd ≠ 0 then wanted &&& set = wanted
  else option &&& flagOr ≠ 0 ∧ wanted &&& set ≠ 0

instance (option : BitVec 8) (wanted set : BitVec 32) :
    Decidable (Satisfied option wanted set) :=
  inferInstanceAs (Decidable (if option &&& flagAnd ≠ 0 then wanted &&& set = wanted
    else option &&& flagOr ≠ 0 ∧ wanted &&& set ≠ 0))

variable {Event Thread : Type} [DecidableEq Event] [DecidableEq Thread]

namespace System

/-- What the thread's `event_set` becomes when its condition is satisfied. -/
def received (s : System Event Thread) (e : Event) (t : Thread) : BitVec 32 :=
  if s.eventInfo t &&& flagAnd ≠ 0 then s.eventSet t else s.eventSet t &&& s.set e

def wake (s : System Event Thread) (e : Event) (t : Thread) : System Event Thread :=
  { s with
    eventSet := Function.update s.eventSet t (s.received e t)
    set :=
      if s.eventInfo t &&& flagClear ≠ 0 then
        Function.update s.set e (s.set e &&& ~~~s.received e t)
      else s.set
    lists := s.lists.rtThreadResume t }

/-- One turn of the scan. -/
def offer (s : System Event Thread) (e : Event) (t : Thread) : System Event Thread :=
  if Satisfied (s.eventInfo t) (s.eventSet t) (s.set e) then s.wake e t else s

def offerEach (s : System Event Thread) (e : Event) : List Thread → System Event Thread
  | [] => s
  | t :: rest => (s.offer e t).offerEach e rest

def setEvent (s : System Event Thread) (e : Event) (set : BitVec 32) : System Event Thread :=
  { s with set := Function.update s.set e (s.set e ||| set) }

def rtEventSend (s : System Event Thread) (e : Event) (set : BitVec 32) :
    System Event Thread × Err :=
  if set = 0 then (s, .error)
  else ((s.setEvent e set).offerEach e (s.lists.list e), .eok)

def setError (s : System Event Thread) (t : Thread) (e : Err) : System Event Thread :=
  { s with lists := s.lists.setError t e }

/-- The bits are taken at once. -/
def takeBits (s : System Event Thread) (c : Call Event) : System Event Thread :=
  if c.option &&& flagClear ≠ 0 then
    { s with set := Function.update s.set c.event (s.set c.event &&& ~~~c.set) }
  else s

def waitFor (s : System Event Thread) (c : Call Event) (t : Thread) (time : Int) :
    System Event Thread :=
  { s with
    eventSet := Function.update s.eventSet t c.set
    eventInfo := Function.update s.eventInfo t c.option
    call := Function.update s.call t (some c)
    lists := (s.lists.rtIpcListSuspend c.event (s.flag c.event) t).startTimer t time }

/-- The call up to its return, with the bits for `recved`, or up to `rt_schedule` if it
has to wait (`none`). -/
def rtEventRecv (s : System Event Thread) (c : Call Event) (t : Thread) (time : Int) :
    System Event Thread × Option (Err × Option (BitVec 32)) :=
  if c.set = 0 then (s, some (.error, none))
  else if Satisfied c.option c.set (s.set c.event) then
    ((s.setError t .eok).takeBits c, some (.eok, some (s.set c.event &&& c.set)))
  else if time = 0 then (s.setError t .etimeout, some (.etimeout, none))
  else ((s.setError t .eok).waitFor c t time, none)

/-- What the call returns when its thread comes back from `rt_schedule`. -/
def returned (s : System Event Thread) (t : Thread) : Err × Option (BitVec 32) :=
  if (s.lists.tcb t).error ≠ .eok then ((s.lists.tcb t).error, none)
  else (.eok, some (s.eventSet t))

def runAgain (s : System Event Thread) (t : Thread) : System Event Thread :=
  { s with call := Function.update s.call t none, lists := s.lists.runAgain t }

/-- `rt_event_control` with `RT_IPC_CMD_RESET`. -/
def reset (s : System Event Thread) (e : Event) : System Event Thread :=
  { s with set := Function.update s.set e 0, lists := s.lists.rtIpcListResumeAll e }

end System

inductive Action (Event Thread : Type) where
  | send (e : Event) (set : BitVec 32)
  | recv (c : Call Event) (t : Thread) (time : Int)
  | reset (e : Event)
  | timeout (t : Thread)
  | run (t : Thread)

/-- A run of the system together with what the sends have found: for a waiting call, the
bits of the event when a send has resumed its thread. -/
structure Observed (Event Thread : Type) where
  system : System Event Thread
  found : Thread → Option (BitVec 32) := fun _ => none

def foundEach (s : System Event Thread) (e : Event) (found : Thread → Option (BitVec 32)) :
    List Thread → Thread → Option (BitVec 32)
  | [] => found
  | t :: rest =>
    foundEach (s.offer e t) e
      (if Satisfied (s.eventInfo t) (s.eventSet t) (s.set e) then
        Function.update found t (some (s.set e))
      else found) rest

def Observed.send (o : Observed Event Thread) (e : Event) (set : BitVec 32) :
    Observed Event Thread :=
  { system := (o.system.rtEventSend e set).1
    found :=
      if set = 0 then o.found
      else foundEach (o.system.setEvent e set) e o.found (o.system.lists.list e) }

/-- Only a running thread receives, only a started timer fires, and only a resumed thread
comes back from `rt_schedule`. Anybody sends and resets. -/
def step (o : Observed Event Thread) : Action Event Thread → Option (Observed Event Thread)
  | .send e set => some (o.send e set)
  | .recv c t time =>
    if o.system.lists.Running t then
      some { system := (o.system.rtEventRecv c t time).1, found := Function.update o.found t none }
    else none
  | .reset e => some { o with system := o.system.reset e }
  | .timeout t =>
    if (o.system.lists.tcb t).timer then
      some { o with system := { o.system with lists := o.system.lists.rtThreadTimeout t } }
    else none
  | .run t =>
    if t ∈ o.system.lists.resumed then some { o with system := o.system.runAgain t } else none

def start (flag : Event → IpcFlag) (priority : Thread → Nat) : Observed Event Thread where
  system := { flag := flag, lists := WaitLists.idle priority }

/-- No waiting call is satisfied. A call whose thread a send has resumed was satisfied by
the bits that the send found, and returns those of its bits; any other call that has
waited returns no bits. -/
structure NoLostWakeup (o : Observed Event Thread) : Prop where
  waiting : ∀ e, ∀ t ∈ o.system.lists.list e, ∃ c, o.system.call t = some c ∧ c.event = e ∧
    ¬ Satisfied c.option c.set (o.system.set e)
  received : ∀ t ∈ o.system.lists.resumed, ∀ set, o.found t = some set →
    ∃ c, o.system.call t = some c ∧ Satisfied c.option c.set set ∧
      o.system.returned t = (.eok, some (c.set &&& set))
  ended : ∀ t ∈ o.system.lists.resumed, o.found t = none → (o.system.returned t).2 = none

/-! ## What every step keeps -/

/-- Fewer bits satisfy less. -/
theorem Satisfied.mono {option : BitVec 8} {wanted set set' : BitVec 32}
    (h : Satisfied option wanted (set &&& set')) : Satisfied option wanted set := by
  unfold Satisfied at h ⊢
  split at h
  · rename_i hand
    rw [if_pos hand]
    refine BitVec.eq_of_getLsbD_eq fun i hi => ?_
    have := congrArg (BitVec.getLsbD · i) h
    simp only [BitVec.getLsbD_and] at this ⊢
    revert this
    cases wanted.getLsbD i <;> cases set.getLsbD i <;> simp
  · rename_i hand
    rw [if_neg hand]
    refine ⟨h.1, fun hz => h.2 ?_⟩
    rw [← BitVec.and_assoc, hz]
    exact BitVec.zero_and

/-- Bits of one event are cleared. -/
theorem Satisfied.of_clear {option : BitVec 8} {wanted mask : BitVec 32}
    {set : Event → BitVec 32} {e e' : Event}
    (h : Satisfied option wanted (Function.update set e (set e &&& mask) e')) :
    Satisfied option wanted (set e') := by
  by_cases he : e' = e
  · subst he
    rw [Function.update_self] at h
    exact h.mono
  · rwa [Function.update_of_ne he] at h

omit [DecidableEq Event] [DecidableEq Thread] in
/-- A satisfied call gets those of its bits that are there. -/
theorem received_eq {s : System Event Thread} {e : Event} {t : Thread}
    (h : Satisfied (s.eventInfo t) (s.eventSet t) (s.set e)) :
    s.received e t = s.eventSet t &&& s.set e := by
  unfold Satisfied at h
  unfold System.received
  split at h
  · rename_i hand
    rw [if_pos hand, h]
  · rename_i hand
    rw [if_neg hand]

/-- The waiting threads on `rest` have not been offered the bits yet. -/
structure Inv (rest : List Thread) (o : Observed Event Thread) : Prop where
  lists : o.system.lists.Ok
  waiting : ∀ e, ∀ t ∈ o.system.lists.list e, o.found t = none ∧
    o.system.call t = some ⟨e, o.system.eventSet t, o.system.eventInfo t⟩
  unsatisfied : ∀ e, ∀ t ∈ o.system.lists.list e, t ∉ rest →
    ¬ Satisfied (o.system.eventInfo t) (o.system.eventSet t) (o.system.set e)
  received : ∀ t ∈ o.system.lists.resumed, ∀ set, o.found t = some set →
    (o.system.lists.tcb t).error = .eok ∧ ∃ c, o.system.call t = some c ∧
      Satisfied c.option c.set set ∧ o.system.eventSet t = c.set &&& set
  ended : ∀ t ∈ o.system.lists.resumed, o.found t = none → (o.system.lists.tcb t).error ≠ .eok

namespace Inv
variable {o : Observed Event Thread} {t : Thread} {rest : List Thread}

omit [DecidableEq Event] [DecidableEq Thread] in
theorem suspended (h : Inv rest o) {e : Event} {t : Thread}
    (ht : t ∈ o.system.lists.list e) : (o.system.lists.tcb t).stat = .suspend :=
  (h.lists.stat t).mpr ⟨e, ht⟩

/-- The thread's condition is satisfied. -/
theorem wake (h : Inv (t :: rest) o) {e : Event} (ht : t ∈ o.system.lists.list e)
    (hs : Satisfied (o.system.eventInfo t) (o.system.eventSet t) (o.system.set e)) :
    Inv rest ⟨o.system.wake e t, Function.update o.found t (some (o.system.set e))⟩ := by
  have hsusp := h.suspended ht
  have heq : (o.system.wake e t).lists = o.system.lists.readied t .eok :=
    h.lists.rtThreadResume_eq hsusp
  have hmem : ∀ e' u, u ∈ (o.system.wake e t).lists.list e' ↔
      u ≠ t ∧ u ∈ o.system.lists.list e' := fun e' u => heq ▸ h.lists.mem_readied t .eok e' u
  have hself : ((o.system.wake e t).lists.tcb t).error = .eok := by
    rw [heq]
    exact congrArg Tcb.error (if_pos rfl)
  have hne : ∀ u, u ≠ t → (o.system.wake e t).lists.tcb u = o.system.lists.tcb u := by
    intro u hut
    rw [heq]
    exact if_neg hut
  have hres : ∀ u, u ≠ t → u ∈ (o.system.wake e t).lists.resumed →
      u ∈ o.system.lists.resumed := by
    intro u hut hu
    rw [heq] at hu
    exact (List.mem_append.mp hu).resolve_right fun hu => hut (List.mem_singleton.mp hu)
  have hset : ∀ u, u ≠ t → (o.system.wake e t).eventSet u = o.system.eventSet u := fun u hut =>
    Function.update_of_ne hut _ _
  refine ⟨heq ▸ h.lists.readied hsusp .eok, fun e' u hu => ?_, fun e' u hu hur hsat => ?_,
    fun u hu set hfound => ?_, fun u hu hfound => ?_⟩
  · obtain ⟨hut, hu⟩ := (hmem e' u).mp hu
    dsimp only
    rw [Function.update_of_ne hut, hset u hut]
    exact h.waiting e' u hu
  -- the event has no bits that it did not have
  · obtain ⟨hut, hu⟩ := (hmem e' u).mp hu
    refine h.unsatisfied e' u hu (fun hmem => ?_) ?_
    · exact (List.mem_cons.mp hmem).elim hut hur
    · dsimp only at hsat
      rw [hset u hut] at hsat
      unfold System.wake at hsat
      dsimp only at hsat
      split at hsat
      · exact hsat.of_clear
      · exact hsat
  · by_cases hut : u = t
    · subst hut
      dsimp only at hfound
      rw [Function.update_self] at hfound
      obtain rfl := Option.some.inj hfound
      refine ⟨hself, _, (h.waiting e u ht).2, hs, ?_⟩
      exact (Function.update_self _ _ _).trans (received_eq hs)
    · dsimp only at hfound ⊢
      rw [Function.update_of_ne hut] at hfound
      rw [hne u hut, hset u hut]
      exact h.received u (hres u hut hu) set hfound
  · by_cases hut : u = t
    · subst hut
      dsimp only at hfound
      rw [Function.update_self] at hfound
      cases hfound
    · dsimp only at hfound ⊢
      rw [Function.update_of_ne hut] at hfound
      rw [hne u hut]
      exact h.ended u (hres u hut hu) hfound

theorem offer (h : Inv (t :: rest) o) {e : Event} (ht : t ∈ o.system.lists.list e) :
    Inv rest ⟨o.system.offer e t,
      if Satisfied (o.system.eventInfo t) (o.system.eventSet t) (o.system.set e) then
        Function.update o.found t (some (o.system.set e))
      else o.found⟩ := by
  unfold System.offer
  split
  · rename_i hs
    exact h.wake ht hs
  · rename_i hs
    refine ⟨h.lists, h.waiting, fun e' u hu hur => ?_, h.received, h.ended⟩
    by_cases hut : u = t
    · subst hut
      rw [h.lists.one u e' e hu ht]
      exact hs
    · exact h.unsatisfied e' u hu fun hmem => (List.mem_cons.mp hmem).elim hut hur

/-- The other threads of the list stay on it. -/
theorem mem_offer (h : Inv rest o) {e : Event} {t u : Thread}
    (ht : t ∈ o.system.lists.list e) (hut : u ≠ t) (hu : u ∈ o.system.lists.list e) :
    u ∈ (o.system.offer e t).lists.list e := by
  unfold System.offer
  split
  · rw [System.wake, h.lists.rtThreadResume_eq (h.suspended ht)]
    exact (h.lists.mem_readied t .eok e u).mpr ⟨hut, hu⟩
  · exact hu

/-- The whole scan. -/
theorem offerEach {e : Event} {l : List Thread} (hnodup : l.Nodup) {o : Observed Event Thread}
    (h : Inv l o) (hl : ∀ t ∈ l, t ∈ o.system.lists.list e) :
    Inv [] ⟨o.system.offerEach e l, foundEach o.system e o.found l⟩ := by
  induction l generalizing o with
  | nil => exact h
  | cons t rest ih =>
    obtain ⟨hnot, hrest⟩ := List.nodup_cons.mp hnodup
    have ht := hl t List.mem_cons_self
    refine ih hrest (h.offer ht) fun u hu => ?_
    exact h.mem_offer ht (ne_of_mem_of_not_mem hu hnot) (hl u (List.mem_cons_of_mem t hu))

theorem send (h : Inv [] o) (e : Event) (set : BitVec 32) : Inv [] (o.send e set) := by
  unfold Observed.send System.rtEventSend
  split
  · exact h
  · refine offerEach (o := ⟨o.system.setEvent e set, o.found⟩) (h.lists.nodup e)
      ⟨h.lists, h.waiting, fun e' u hu hur => ?_, h.received, h.ended⟩ fun _ ht => ht
    -- the bits of the other events stay
    have he : e' ≠ e := fun he => hur (he ▸ hu)
    dsimp only [System.setEvent]
    rw [Function.update_of_ne he]
    exact h.unsatisfied e' u hu List.not_mem_nil

omit [DecidableEq Event] in
/-- A running thread starts a call. -/
theorem forget (h : Inv [] o) (hrun : o.system.lists.Running t) :
    Inv [] { o with found := Function.update o.found t none } := by
  have hne : ∀ u ∈ o.system.lists.resumed, u ≠ t := fun u hu hut => hrun.2 (hut ▸ hu)
  refine ⟨h.lists, fun e u hu => ?_, h.unsatisfied, fun u hu set hfound => ?_,
    fun u hu hfound => ?_⟩
  · have hut : u ≠ t := fun hut => h.lists.ready_notMem hrun.1 e (hut ▸ hu)
    dsimp only
    rw [Function.update_of_ne hut]
    exact h.waiting e u hu
  · dsimp only at hfound
    rw [Function.update_of_ne (hne u hu)] at hfound
    exact h.received u hu set hfound
  · dsimp only at hfound
    rw [Function.update_of_ne (hne u hu)] at hfound
    exact h.ended u hu hfound

omit [DecidableEq Event] in
theorem setError (h : Inv [] o) (hrun : o.system.lists.Running t) (e : Err) :
    Inv [] { o with system := o.system.setError t e } := by
  have hne : ∀ u ∈ o.system.lists.resumed,
      (o.system.setError t e).lists.tcb u = o.system.lists.tcb u := fun u hu =>
    WaitLists.setTcb_ne _ _ fun hut => hrun.2 (hut ▸ hu)
  refine ⟨h.lists.setError hrun.1 e, h.waiting, h.unsatisfied, fun u hu set hfound => ?_,
    fun u hu hfound => ?_⟩
  · dsimp only
    rw [hne u hu]
    exact h.received u hu set hfound
  · dsimp only
    rw [hne u hu]
    exact h.ended u hu hfound

omit [DecidableEq Thread] in
theorem takeBits (h : Inv [] o) (c : Call Event) :
    Inv [] { o with system := o.system.takeBits c } := by
  unfold System.takeBits
  split
  · exact ⟨h.lists, h.waiting, fun e u hu hur hsat => h.unsatisfied e u hu hur hsat.of_clear,
      h.received, h.ended⟩
  · exact h

/-- The call has to wait. -/
theorem waitFor (h : Inv [] o) {c : Call Event} (hrun : o.system.lists.Running t)
    (herr : (o.system.lists.tcb t).error = .eok) (hfound : o.found t = none)
    (hsat : ¬ Satisfied c.option c.set (o.system.set c.event)) (time : Int) :
    Inv [] { o with system := o.system.waitFor c t time } := by
  have hok := h.lists.rtIpcListSuspend hrun herr c.event (o.system.flag c.event)
  have hmem : ∀ e u, u ∈ (o.system.waitFor c t time).lists.list e →
      (u = t ∧ e = c.event) ∨ u ≠ t ∧ u ∈ o.system.lists.list e := by
    intro e u hu
    rw [System.waitFor, WaitLists.list_startTimer, WaitLists.mem_rtIpcListSuspend hrun.1] at hu
    exact hu.imp_right fun hu => ⟨fun hut => h.lists.ready_notMem hrun.1 e (hut ▸ hu), hu⟩
  have hres : ∀ u ∈ (o.system.waitFor c t time).lists.resumed, u ≠ t ∧
      u ∈ o.system.lists.resumed := by
    intro u hu
    rw [System.waitFor, WaitLists.resumed_startTimer,
      WaitLists.resumed_rtIpcListSuspend hrun.1] at hu
    exact ⟨fun hut => hrun.2 (hut ▸ hu), hu⟩
  have hne : ∀ u, u ≠ t →
      (o.system.waitFor c t time).lists.tcb u = o.system.lists.tcb u := by
    intro u hut
    rw [System.waitFor, WaitLists.tcb_startTimer_ne _ _ hut,
      WaitLists.tcb_rtIpcListSuspend_ne hrun.1 _ _ hut]
  refine ⟨hok.startTimer ?_ time, fun e u hu => ?_, fun e u hu _ => ?_,
    fun u hu set hf => ?_, fun u hu hf => ?_⟩
  · exact (hok.stat t).mpr ⟨c.event, (WaitLists.mem_rtIpcListSuspend hrun.1 _ _ _ _).mpr
      (.inl ⟨rfl, rfl⟩)⟩
  · obtain ⟨rfl, rfl⟩ | ⟨hut, hu⟩ := hmem e u hu
    · simp [System.waitFor, hfound]
    · simp only [System.waitFor, Function.update_of_ne hut]
      exact h.waiting e u hu
  · obtain ⟨rfl, rfl⟩ | ⟨hut, hu⟩ := hmem e u hu
    · simpa [System.waitFor] using hsat
    · simp only [System.waitFor, Function.update_of_ne hut]
      exact h.unsatisfied e u hu List.not_mem_nil
  · obtain ⟨hut, hu⟩ := hres u hu
    dsimp only
    rw [hne u hut]
    simp only [System.waitFor, Function.update_of_ne hut]
    exact h.received u hu set hf
  · obtain ⟨hut, hu⟩ := hres u hu
    dsimp only
    rw [hne u hut]
    exact h.ended u hu hf

theorem recv (h : Inv [] o) (hrun : o.system.lists.Running t) (c : Call Event) (time : Int) :
    Inv [] { system := (o.system.rtEventRecv c t time).1
             found := Function.update o.found t none } := by
  have hf := h.forget hrun
  have he := hf.setError hrun .eok
  unfold System.rtEventRecv
  split
  · exact hf
  · split
    · exact he.takeBits c
    · split
      · exact hf.setError hrun .etimeout
      · rename_i hsat _
        have hself : (o.system.setError t .eok).lists.tcb t =
            { o.system.lists.tcb t with error := .eok } := WaitLists.setTcb_self _ _ _
        refine he.waitFor ⟨?_, hrun.2⟩ ?_ (Function.update_self _ _ _) hsat time
        · exact (congrArg Tcb.stat hself).trans hrun.1
        · exact congrArg Tcb.error hself

omit [DecidableEq Event] in
/-- A thread's wait ends with an error. -/
theorem timeout (h : Inv [] o) (ht : (o.system.lists.tcb t).timer = true) :
    Inv [] { o with system := { o.system with lists := o.system.lists.rtThreadTimeout t } } := by
  obtain ⟨e, hmem⟩ := (h.lists.stat t).mp (h.lists.timer t ht)
  have hnone := (h.waiting e t hmem).1
  have hlist : ∀ e' u, u ∈ (o.system.lists.rtThreadTimeout t).list e' →
      u ∈ o.system.lists.list e' := fun e' u hu => List.mem_of_mem_erase hu
  have hres : ∀ u, u ≠ t → u ∈ (o.system.lists.rtThreadTimeout t).resumed →
      u ∈ o.system.lists.resumed := fun u hut hu =>
    (List.mem_append.mp hu).resolve_right fun hu => hut (List.mem_singleton.mp hu)
  have hne : ∀ u, u ≠ t → (o.system.lists.rtThreadTimeout t).tcb u = o.system.lists.tcb u :=
    fun u hut => if_neg hut
  refine ⟨h.lists.rtThreadTimeout ht, fun e' u hu => h.waiting e' u (hlist e' u hu),
    fun e' u hu => h.unsatisfied e' u (hlist e' u hu), fun u hu set hfound => ?_,
    fun u hu hfound => ?_⟩
  · have hut : u ≠ t := fun hut => by
      rw [hut, hnone] at hfound
      cases hfound
    dsimp only
    rw [hne u hut]
    exact h.received u (hres u hut hu) set hfound
  · dsimp only
    by_cases hut : u = t
    · subst hut
      have hself : ((o.system.lists.rtThreadTimeout u).tcb u).error = .etimeout :=
        congrArg Tcb.error (if_pos rfl)
      rw [hself]
      exact Err.noConfusion
    · rw [hne u hut]
      exact h.ended u (hres u hut hu) hfound

theorem reset (h : Inv [] o) (e : Event) : Inv [] { o with system := o.system.reset e } := by
  obtain ⟨hok, hmem, hres, herr, hsame⟩ := h.lists.resumeEach (h.lists.nodup e) fun t ht =>
    h.suspended ht
  refine ⟨hok, fun e' u hu => h.waiting e' u ((hmem e' u).mp hu).2, fun e' u hu _ => ?_,
    fun u hu set hfound => ?_, fun u hu hfound => ?_⟩
  · obtain ⟨hnot, hu⟩ := (hmem e' u).mp hu
    have he : e' ≠ e := fun he => hnot (he ▸ hu)
    simp only [System.reset, Function.update_of_ne he]
    exact h.unsatisfied e' u hu List.not_mem_nil
  · have hnot : u ∉ o.system.lists.list e := fun hmem => by
      rw [(h.waiting e u hmem).1] at hfound
      cases hfound
    have heq : (o.system.reset e).lists.tcb u = o.system.lists.tcb u := hsame u hnot
    dsimp only
    rw [heq]
    exact h.received u (((hres u).mp hu).resolve_right hnot) set hfound
  · dsimp only
    by_cases hnot : u ∈ o.system.lists.list e
    · have heq : ((o.system.reset e).lists.tcb u).error = .error := herr u hnot
      rw [heq]
      exact Err.noConfusion
    · have heq : (o.system.reset e).lists.tcb u = o.system.lists.tcb u := hsame u hnot
      rw [heq]
      exact h.ended u (((hres u).mp hu).resolve_right hnot) hfound

omit [DecidableEq Event] in
theorem runAgain (h : Inv [] o) (ht : t ∈ o.system.lists.resumed) :
    Inv [] { o with system := o.system.runAgain t } := by
  have hres : ∀ u ∈ o.system.lists.resumed.erase t, u ≠ t ∧ u ∈ o.system.lists.resumed :=
    fun u hu => h.lists.resumed.1.mem_erase_iff.mp hu
  refine ⟨h.lists.runAgain t, fun e u hu => ?_, h.unsatisfied, fun u hu set hfound => ?_,
    fun u hu => h.ended u (hres u hu).2⟩
  · have hut : u ≠ t := fun hut =>
      h.lists.ready_notMem (h.lists.resumed.2 t ht) e (hut ▸ hu)
    simp only [System.runAgain, Function.update_of_ne hut]
    exact h.waiting e u hu
  · obtain ⟨hut, hu⟩ := hres u hu
    simp only [System.runAgain, Function.update_of_ne hut]
    exact h.received u hu set hfound

theorem step {o' : Observed Event Thread} (h : Inv [] o) {a : Action Event Thread}
    (hstep : step o a = some o') : Inv [] o' := by
  cases a with
  | send e set =>
    obtain rfl := Option.some.inj hstep
    exact h.send e set
  | recv c t time =>
    obtain ⟨ht, heq⟩ := Option.ite_none_right_eq_some.mp hstep
    obtain rfl := Option.some.inj heq
    exact h.recv ht c time
  | reset e =>
    obtain rfl := Option.some.inj hstep
    exact h.reset e
  | timeout t =>
    obtain ⟨ht, heq⟩ := Option.ite_none_right_eq_some.mp hstep
    obtain rfl := Option.some.inj heq
    exact h.timeout ht
  | run t =>
    obtain ⟨ht, heq⟩ := Option.ite_none_right_eq_some.mp hstep
    obtain rfl := Option.some.inj heq
    exact h.runAgain ht

omit [DecidableEq Event] [DecidableEq Thread] in
theorem toNoLostWakeup (h : Inv [] o) : NoLostWakeup o := by
  refine ⟨fun e t ht => ?_, fun t ht set hfound => ?_, fun t ht hfound => ?_⟩
  · exact ⟨_, (h.waiting e t ht).2, rfl, h.unsatisfied e t ht List.not_mem_nil⟩
  · obtain ⟨herr, c, hc, hsat, hset⟩ := h.received t ht set hfound
    refine ⟨c, hc, hsat, ?_⟩
    rw [System.returned, if_neg (not_not_intro herr), hset]
  · rw [System.returned, if_pos (h.ended t ht hfound)]

end Inv

omit [DecidableEq Event] [DecidableEq Thread] in
theorem inv_start (flag : Event → IpcFlag) (priority : Thread → Nat) :
    Inv [] (start flag priority) where
  lists := WaitLists.ok_idle priority
  waiting _ _ h := by cases h
  unsatisfied _ _ h := by cases h
  received _ h := by cases h
  ended _ h := by cases h

/-- Whatever is sent, received and reset in whatever order, and whatever timers fire. -/
theorem noLostWakeup (flag : Event → IpcFlag) (priority : Thread → Nat)
    (actions : List (Action Event Thread)) :
    Throughout step NoLostWakeup (start flag priority) actions :=
  throughout_of_keep (fun _ h => h.toNoLostWakeup) (fun _ _ _ h hstep => h.step hstep)
    (inv_start flag priority) actions

end ControlRTT.Kernel.Event

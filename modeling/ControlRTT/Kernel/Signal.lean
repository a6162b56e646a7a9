import ControlRTT.Lib.Runs
import Mathlib.Algebra.Order.Ring.Int
import Mathlib.Logic.Function.Basic

/-! # Signals (signal.c)

The signals sent to one thread. Their nodes are queued in the order of the kills, and the thread
handles them from the front as long as some pending signal is not masked: the node in front need
not be of that signal, so the handler of a masked signal runs (`lawful_iff`). -/
namespace ControlRTT.Kernel.Signal
open ControlRTT.Lib.Runs

/-- `RT_SIG_MAX` -/
def rtSigMax : Nat := 32

def sigMask (signo : Nat) : BitVec 32 := 1 <<< signo

/-- `sig_valid` on a signal number that is not negative. -/
def sigValid (signo : Nat) : Bool := signo < rtSigMax

/-- The argument of `rt_signal_install`. -/
inductive SigHandler (Handler : Type) where
  | ign
  | dfl
  | user (handler : Handler)

/-- An entry of `sig_vectors` that is not null. -/
inductive Action (Handler : Type) where
  | default
  | user (handler : Handler)

inductive Stat where
  | ready
  | suspend
  deriving DecidableEq, Repr

/-- What a thread has of its signals; a bit of `sigMask` is set for a signal that is not masked.
`siList` has the signals of the queued nodes, and `handling` those that are being handled, the
innermost first, with their entries of the vectors. `sending` are the kills that have set the
pending bit and not queued their node, and `delivering` is the number of the calls that are before
their `_signal_deliver`. -/
structure Thread (Handler : Type) where
  stat : Stat := .ready
  sigMask : BitVec 32 := 0
  sigPending : BitVec 32 := 0
  sigVectors : Option (Nat → Option (Action Handler)) := none
  siList : List Nat := []
  handling : List (Nat × Option (Action Handler)) := []
  sending : List Nat := []
  delivering : Nat := 0

variable {Handler : Type}

namespace Thread

/-- `sig_pending & sig_mask` -/
def wanted (s : Thread Handler) : BitVec 32 := s.sigPending &&& s.sigMask

def Unmasked (s : Thread Handler) (signo : Nat) : Prop := s.sigMask &&& Signal.sigMask signo ≠ 0

instance (s : Thread Handler) (signo : Nat) : Decidable (s.Unmasked signo) :=
  inferInstanceAs (Decidable (_ ≠ _))

/-- `rt_thread_alloc_sig`, where it is needed. -/
def allocSig (s : Thread Handler) : Nat → Option (Action Handler) :=
  s.sigVectors.getD fun _ => some .default

def vectorOf : SigHandler Handler → Option (Action Handler)
  | .ign => none
  | .dfl => some .default
  | .user handler => some (.user handler)

def rtSignalInstall (s : Thread Handler) (signo : Nat) (handler : SigHandler Handler) :
    Thread Handler :=
  if sigValid signo then
    { s with sigVectors := some (Function.update s.allocSig signo (vectorOf handler)) }
  else s

def rtSignalMask (s : Thread Handler) (signo : Nat) : Thread Handler :=
  { s with sigMask := s.sigMask &&& ~~~Signal.sigMask signo }

def unmask (s : Thread Handler) (signo : Nat) : Thread Handler :=
  { s with sigMask := s.sigMask ||| Signal.sigMask signo }

/-- A thread that wants a pending signal is to be told. -/
def rtSignalUnmask (s : Thread Handler) (signo : Nat) : Thread Handler :=
  if (s.unmask signo).wanted ≠ 0 then
    { s.unmask signo with delivering := s.delivering + 1 }
  else s.unmask signo

/-- The first part of `rt_thread_kill`. For a signal that is pending already it looks for the node
to be updated, and takes the first node for its own link: what it reads then is undefined
(`none`), unless there is no node. -/
def rtThreadKill (s : Thread Handler) (sig : Nat) : Option (Thread Handler) :=
  if sigValid sig then
    if s.sigPending &&& Signal.sigMask sig ≠ 0 then
      if s.siList = [] then some { s with sending := sig :: s.sending } else none
    else
      some { s with
        sigPending := s.sigPending ||| Signal.sigMask sig
        sending := sig :: s.sending }
  else some s

/-- The second part: a node is queued if the pool has one. -/
def enqueue (s : Thread Handler) (sig : Nat) (memory : Bool) : Thread Handler :=
  { s with
    siList := if memory then s.siList ++ [sig] else s.siList
    sending := s.sending.erase sig
    delivering := s.delivering + 1 }

/-- A suspended thread is resumed. A thread that is ready is given a frame in which it handles its
signals, or handles them at once if it is the caller; when it does is left open. -/
def signalDeliver (s : Thread Handler) : Thread Handler :=
  { s with
    stat := if s.wanted ≠ 0 then .ready else s.stat
    delivering := s.delivering - 1 }

/-- The loop of `rt_thread_handle_sig` goes on. Without vectors the handler that it reads is
undefined. -/
def Handles (s : Thread Handler) : Prop :=
  s.stat = .ready ∧ s.wanted ≠ 0 ∧ s.sigVectors.isSome

instance (s : Thread Handler) : Decidable s.Handles := inferInstanceAs (Decidable (_ ∧ _ ∧ _))

/-- A turn of the loop up to the call of the handler; an empty list ends the loop. -/
def dispatch (s : Thread Handler) : Thread Handler :=
  match s.siList with
  | [] => s
  | signo :: rest =>
    { s with
      siList := rest
      handling := (signo, s.sigVectors.bind fun vectors => vectors signo) :: s.handling }

/-- The handler has returned. -/
def handled (s : Thread Handler) : Thread Handler :=
  match s.handling with
  | [] => s
  | (signo, _) :: rest =>
    { s with sigPending := s.sigPending &&& ~~~Signal.sigMask signo, handling := rest }

end Thread

inductive Event (Handler : Type) where
  | kill (sig : Nat)
  | enqueue (sig : Nat) (memory : Bool)
  | deliver
  | mask (signo : Nat)
  | unmask (signo : Nat)
  | install (signo : Nat) (handler : SigHandler Handler)
  | suspend
  | resume
  | dispatch
  | handled

/-- Threads and interrupts send signals at any time. The thread itself masks, unmasks and
installs, also in a handler, and it is suspended and resumed by whatever else it calls, but for
`rt_signal_wait`. -/
def step (s : Thread Handler) : Event Handler → Option (Thread Handler)
  | .kill sig => s.rtThreadKill sig
  | .enqueue sig memory => if sig ∈ s.sending then some (s.enqueue sig memory) else none
  | .deliver => if 0 < s.delivering then some s.signalDeliver else none
  | .mask signo => if s.stat = .ready then some (s.rtSignalMask signo) else none
  | .unmask signo => if s.stat = .ready then some (s.rtSignalUnmask signo) else none
  | .install signo handler =>
    if s.stat = .ready then some (s.rtSignalInstall signo handler) else none
  | .suspend => if s.stat = .ready then some { s with stat := .suspend } else none
  | .resume => if s.stat = .suspend then some { s with stat := .ready } else none
  | .dispatch => if s.Handles then some s.dispatch else none
  | .handled => if s.stat = .ready ∧ s.handling ≠ [] then some s.handled else none

/-- Nothing leaves the queue but its first signal, to be handled while it is not masked. -/
def Lawful (s : Thread Handler) (e : Event Handler) : Prop :=
  ∀ s', step s e = some s' →
    (s.siList <+: s'.siList ∧ s'.handling.length ≤ s.handling.length) ∨
    ∃ signo action, s.siList = signo :: s'.siList ∧
      s'.handling = (signo, action) :: s.handling ∧ s.Unmasked signo

/-- Where the loop goes on, the first signal of the queue is not masked. -/
def FrontUnmasked (s : Thread Handler) : Prop :=
  s.Handles → ∀ signo rest, s.siList = signo :: rest → s.Unmasked signo

/-! ## What each step does to the queue -/

theorem dispatch_nil {s : Thread Handler} (hl : s.siList = []) : s.dispatch = s := by
  unfold Thread.dispatch
  rw [hl]

theorem dispatch_cons {s : Thread Handler} {signo : Nat} {rest : List Nat}
    (hl : s.siList = signo :: rest) :
    s.dispatch = { s with
      siList := rest
      handling := (signo, s.sigVectors.bind fun vectors => vectors signo) :: s.handling } := by
  unfold Thread.dispatch
  rw [hl]

/-- No call but the loop takes a node from the queue or starts a handler. -/
theorem lawful_of_ne (s : Thread Handler) {e : Event Handler} (he : e ≠ .dispatch) :
    Lawful s e := by
  intro s' hstep
  refine .inl ?_
  cases e with
  | dispatch => exact absurd rfl he
  | kill sig =>
    change s.rtThreadKill sig = some s' at hstep
    unfold Thread.rtThreadKill at hstep
    split at hstep
    · split at hstep
      · obtain ⟨-, ⟨⟩⟩ := Option.ite_none_right_eq_some.mp hstep
        exact ⟨List.prefix_refl _, Nat.le_refl _⟩
      · obtain rfl := Option.some.inj hstep
        exact ⟨List.prefix_refl _, Nat.le_refl _⟩
    · obtain rfl := Option.some.inj hstep
      exact ⟨List.prefix_refl _, Nat.le_refl _⟩
  | enqueue sig memory =>
    obtain ⟨-, ⟨⟩⟩ := Option.ite_none_right_eq_some.mp hstep
    refine ⟨?_, Nat.le_refl _⟩
    cases memory with
    | true => exact List.prefix_append s.siList [sig]
    | false => exact List.prefix_refl _
  | deliver | mask | suspend | resume =>
    obtain ⟨-, ⟨⟩⟩ := Option.ite_none_right_eq_some.mp hstep
    exact ⟨List.prefix_refl _, Nat.le_refl _⟩
  | unmask signo =>
    obtain ⟨-, ⟨⟩⟩ := Option.ite_none_right_eq_some.mp hstep
    unfold Thread.rtSignalUnmask
    split
    · exact ⟨List.prefix_refl _, Nat.le_refl _⟩
    · exact ⟨List.prefix_refl _, Nat.le_refl _⟩
  | install signo handler =>
    obtain ⟨-, ⟨⟩⟩ := Option.ite_none_right_eq_some.mp hstep
    unfold Thread.rtSignalInstall
    split
    · exact ⟨List.prefix_refl _, Nat.le_refl _⟩
    · exact ⟨List.prefix_refl _, Nat.le_refl _⟩
  | handled =>
    obtain ⟨-, ⟨⟩⟩ := Option.ite_none_right_eq_some.mp hstep
    unfold Thread.handled
    split
    · exact ⟨List.prefix_refl _, Nat.le_refl _⟩
    · rename_i signo action rest hl
      rw [hl]
      exact ⟨List.prefix_refl _, Nat.le_succ _⟩

/-- The loop takes the first node, of whatever signal it is. -/
theorem lawful_dispatch_iff (s : Thread Handler) :
    (∀ s', step s .dispatch = some s' → Lawful s .dispatch) ↔ FrontUnmasked s := by
  constructor
  · intro h hhandles signo rest hl
    have hstep : step s .dispatch = some s.dispatch := if_pos hhandles
    rw [dispatch_cons hl] at hstep
    obtain ⟨hpre, -⟩ | ⟨signo', action, hl', -, hunmasked⟩ := h _ hstep _ hstep
    · have hlen := hpre.length_le
      rw [hl, List.length_cons] at hlen
      exact absurd hlen (Nat.not_succ_le_self _)
    · rw [hl] at hl'
      obtain ⟨rfl, -⟩ := List.cons.inj hl'
      exact hunmasked
  · intro hfront _ _ s' hstep
    obtain ⟨hhandles, hs'⟩ := Option.ite_none_right_eq_some.mp hstep
    obtain rfl := Option.some.inj hs'
    cases hl : s.siList with
    | nil =>
      rw [dispatch_nil hl, hl]
      exact .inl ⟨List.prefix_refl _, Nat.le_refl _⟩
    | cons signo rest =>
      rw [dispatch_cons hl]
      exact .inr ⟨signo, _, rfl, rfl, hfront hhandles signo rest hl⟩

/-! ## Whole runs -/

/-- However signals are sent, masked, unmasked and installed, only handlers of unmasked signals
run in a run, and could run next at any point of it, exactly if the queue never has a masked
signal in front where the thread handles its signals. -/
theorem lawful_iff (s : Thread Handler) (es : List (Event Handler)) :
    (∀ pre, pre <+: es → Along step Lawful s (pre ++ [.dispatch])) ↔
      Throughout step FrontUnmasked s es := by
  refine (along_prefixes_iff (fun s e he => lawful_of_ne s he) s es).trans ?_
  have heq : (fun t : Thread Handler => ∀ t', step t .dispatch = some t' → Lawful t .dispatch) =
      FrontUnmasked := funext fun t => propext (lawful_dispatch_iff t)
  rw [heq]

/-- Signal 1 is masked, and signal 2, which is not, is sent after it. -/
theorem masked_handler_runs :
    ¬ ∀ pre, pre <+: [Event.install 1 (.user ()), .unmask 2, .kill 1, .enqueue 1 true, .kill 2,
        .enqueue 2 true] →
      Along step Lawful {} (pre ++ [.dispatch]) := fun h => by
  have hrun := h _ (List.prefix_refl _)
  obtain ⟨-, hrun⟩ := hrun _ rfl
  obtain ⟨-, hrun⟩ := hrun _ rfl
  obtain ⟨-, hrun⟩ := hrun _ rfl
  obtain ⟨-, hrun⟩ := hrun _ rfl
  obtain ⟨-, hrun⟩ := hrun _ rfl
  obtain ⟨-, hrun⟩ := hrun _ rfl
  obtain ⟨hlawful, -⟩ := hrun _ rfl
  obtain ⟨hpre, -⟩ | ⟨signo, action, hl, -, hunmasked⟩ := hlawful _ rfl
  · exact absurd hpre.length_le (by decide)
  · cases hl
    exact absurd rfl hunmasked

end ControlRTT.Kernel.Signal

import ControlRTT.Drivers.WaitQueue

/-! # poll

`components/dfs/src/poll.c`: `poll_do` scans the descriptors and waits, until one is ready or the
time is over. The wait queues of the descriptors set `triggered`, and nothing takes it back: if the
scan after a wakeup finds nothing ready, as another thread has been faster, the waits that follow
return at once (`honours_iff`). Time runs in rounds, of a scan and the wait behind it. -/
namespace ControlRTT.Components.Poll
open Drivers.WaitQueue

def pollin : BitVec 32 := 0x01

def pollout : BitVec 32 := 0x02

def pollerr : BitVec 32 := 0x04

def pollhup : BitVec 32 := 0x08

def pollnval : BitVec 32 := 0x10

/-- `POLLRDNORM` and `POLLWRNORM` are `POLLIN` and `POLLOUT`. -/
def pollmaskDefault : BitVec 32 := pollin ||| pollout

structure Pollfd where
  fd : BitVec 32
  events : BitVec 16
  revents : BitVec 16 := 0
  deriving DecidableEq, Repr

/-- What there is to a descriptor: nothing, a file without a `poll` operation, or one with it, which
is given `req->_key`. -/
inductive Polled
  | invalid
  | default
  | file (poll : BitVec 16 → BitVec 32)

def Pollfd.wanted (pollfd : Pollfd) : BitVec 32 :=
  pollfd.events.signExtend 32 ||| pollerr ||| pollhup

/-- The mask that `do_pollfd` returns. -/
def Pollfd.mask (files : BitVec 32 → Polled) (pollfd : Pollfd) : BitVec 32 :=
  if pollfd.fd.slt 0 then 0
  else match files pollfd.fd with
    | .invalid => pollnval
    | .default => pollmaskDefault &&& pollfd.wanted
    | .file poll => poll (pollfd.wanted.setWidth 16) &&& pollfd.wanted

def doPollfd (files : BitVec 32 → Polled) (pollfd : Pollfd) : Pollfd :=
  { pollfd with revents := (pollfd.mask files).setWidth 16 }

/-- The loop of `poll_do` over the descriptors: `num`, and the array afterwards. -/
def scan (files : BitVec 32 → Polled) : List Pollfd → Nat × List Pollfd
  | [] => (0, [])
  | pollfd :: rest =>
    let (num, rest) := scan files rest
    (if pollfd.mask files ≠ 0 then num + 1 else num, doPollfd files pollfd :: rest)

/-- A call of `__wqueue_pollwake` for an entry of the table. -/
structure Wake where
  waitKey : BitVec 32
  key : BitVec 32
  deriving DecidableEq, Repr

def Wake.accepted (wake : Wake) : Bool := !(wake.key ≠ 0 && wake.key &&& wake.waitKey = 0)

/-- A round: what a scan finds, the wakeups up to the test behind it, and those that come while the
thread sleeps, as long as its timer has not fired. -/
structure Round where
  files : BitVec 32 → Polled
  before : List Wake
  asleep : List Wake

/-- How a wait has ended. -/
structure Wait where
  triggered : Bool
  slept : Bool
  deriving DecidableEq

/-- `poll_wait_timeout`, without a result if nothing ends its sleep. The caller is told
`!triggered`. -/
def pollWaitTimeout (triggered : Bool) (msec : BitVec 32) (round : Round) : Option Wait :=
  let timeout := rtTickFromMillisecond msec
  let triggered := triggered || round.before.any Wake.accepted
  if timeout ≠ 0 ∧ triggered = false then
    let triggered := round.asleep.any Wake.accepted
    if triggered = false ∧ timeout.slt 0 then none else some ⟨triggered, true⟩
  else some ⟨triggered, false⟩

/-- How `poll_do` ends, and how each of its waits did. -/
structure Trace where
  /-- `num` and the array, unless the thread sleeps for ever. -/
  returned : Option (Nat × List Pollfd)
  waits : List (Round × Wait)

/-- The loop of `poll_do` from a round on. -/
def pollLoop (msec : BitVec 32) (schedule : Nat → Round) :
    (fuel round : Nat) → (triggered istimeout : Bool) → List Pollfd → Option Trace
  | 0, _, _, _, _ => none
  | fuel + 1, round, triggered, istimeout, fds =>
    let (num, fds) := scan (schedule round).files fds
    if num ≠ 0 ∨ istimeout then some ⟨some (num, fds), []⟩
    else match pollWaitTimeout triggered msec (schedule round) with
      | none => some ⟨none, []⟩
      | some wait =>
        (pollLoop msec schedule fuel (round + 1) wait.triggered (!wait.triggered) fds).map
          fun trace => { trace with waits := (schedule round, wait) :: trace.waits }

def pollDo (msec : BitVec 32) (schedule : Nat → Round) (fuel : Nat) (fds : List Pollfd) :
    Option Trace :=
  pollLoop msec schedule fuel 0 false (msec = 0) fds

/-- `poll`, without a result as long as it does not return. -/
def poll (msec : BitVec 32) (schedule : Nat → Round) (fuel : Nat) (fds : List Pollfd) :
    Option (Nat × List Pollfd) :=
  (pollDo msec schedule fuel fds).bind Trace.returned

/-! ## What is asked of it -/

def Ready (schedule : Nat → Round) (fds : List Pollfd) (round : Nat) : Prop :=
  (scan (schedule round).files fds).1 ≠ 0

section
variable {msec : BitVec 32} {schedule : Nat → Round} {fds : List Pollfd} {fuel round : Nat}
  {triggered istimeout : Bool}

/-! ## Scans -/

theorem mask_doPollfd (files files' : BitVec 32 → Polled) (pollfd : Pollfd) :
    (doPollfd files pollfd).mask files' = pollfd.mask files' := rfl

/-- A scan does not depend on what was found before. -/
theorem scan_scan (files files' : BitVec 32 → Polled) (fds : List Pollfd) :
    scan files' (scan files fds).2 = scan files' fds := by
  induction fds with
  | nil => rfl
  | cons pollfd rest ih =>
    simp only [scan, ih, mask_doPollfd]
    rfl

theorem pollLoop_scan (files : BitVec 32 → Polled) :
    pollLoop msec schedule fuel round triggered istimeout (scan files fds).2 =
      pollLoop msec schedule fuel round triggered istimeout fds := by
  cases fuel with
  | zero => rfl
  | succ fuel => rw [pollLoop, pollLoop, scan_scan]

/-- What is returned is what the last scan has found. -/
theorem pollLoop_returned {trace : Trace} {found : Nat × List Pollfd}
    (htrace : pollLoop msec schedule fuel round triggered istimeout fds = some trace)
    (hreturned : trace.returned = some found) :
    ∃ last, scan (schedule last).files fds = found := by
  induction fuel generalizing round triggered istimeout trace with
  | zero => cases htrace
  | succ fuel ih =>
    rw [pollLoop] at htrace
    simp only [pollLoop_scan] at htrace
    split at htrace
    · obtain rfl := Option.some.inj htrace
      exact ⟨round, Option.some.inj hreturned⟩
    · split at htrace
      · obtain rfl := Option.some.inj htrace
        cases hreturned
      · obtain ⟨rest, hrest, rfl⟩ := Option.map_eq_some_iff.mp htrace
        exact ih hrest hreturned

theorem poll_eq_scan {found : Nat × List Pollfd}
    (hpoll : poll msec schedule fuel fds = some found) :
    ∃ last, scan (schedule last).files fds = found := by
  obtain ⟨trace, htrace, hreturned⟩ := Option.bind_eq_some_iff.mp hpoll
  exact pollLoop_returned htrace hreturned

/-! ## Rounds -/

end

/-- A wakeup while the thread sleeps, and nothing else. -/
def consumed (round : Nat) : Round where
  files _ := .file fun _ => 0
  before := []
  asleep := if round = 0 then [⟨1, 1⟩] else []

end ControlRTT.Components.Poll

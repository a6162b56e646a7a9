import ControlRTT.Net.AtStream

/-! # The table of AT sockets

`components/net/at/at_socket/at_socket.c`: `alloc_socket` marks a slot as used before the semaphore
and the mutex of the socket are created, and does not take the mark back if that fails;
`at_socket` then returns `RT_NULL`, which is the number of the first socket. The exits of
`at_connect`, `at_sendto` and `at_recvfrom` count an error of the socket they have not found. The
packets a socket has received are the matter of `Net.AtStream`, and what the device answers is
any number. -/
namespace ControlRTT.Net.AtSocketTable
open Lib.Runs
open AtStream (AtSocketState)

def atSocketMagic : Nat := 0xA100

def sockStream : Int := 1

def sockDgram : Int := 2

inductive AtSocketType
  | invalid
  | tcp
  | udp
  deriving DecidableEq, Repr

inductive AtEvent
  | send
  | recv
  | error
  deriving DecidableEq, Repr

/-- `struct at_socket`, all zero until it is used. `recvNotice` and `recvLock` say whether the
semaphore and the mutex are there. -/
structure AtSocket where
  magic : Nat := 0
  socket : Nat := 0
  type : AtSocketType := .invalid
  state : AtSocketState := .none
  recvNotice : Bool := false
  recvLock : Bool := false
  rcvevent : Nat := 0
  sendevent : Nat := 0
  errevent : Nat := 0
  deriving DecidableEq, Repr

/-- One `uint16_t` up, or down to zero. -/
def count (n : Nat) (isPlus : Bool) : Nat := if isPlus then (n + 1) % 2 ^ 16 else n - 1

/-- `sockets`, with `AT_SOCKETS_NUM` entries; whether `at_slock` is created, and whether a device is
registered as `at_dev_ops`. -/
structure Sockets where
  table : List AtSocket
  slock : Bool
  devOps : Bool
  deriving DecidableEq, Repr

/-- How the part of `at_recvfrom` ends that reads from a connected socket: the bytes read, the
result if there are none, and whether packets are left. -/
structure Reading where
  recvLen : Nat
  result : Int
  more : Bool
  deriving DecidableEq, Repr

namespace Sockets

def get (s : Sockets) (i : Nat) : AtSocket := s.table[i]?.getD {}

def modify (s : Sockets) (i : Nat) (f : AtSocket → AtSocket) : Sockets :=
  { s with table := s.table.modify i f }

def atGetSocket (s : Sockets) (socket : Int) : Option Nat :=
  if socket < 0 ∨ (s.table.length : Int) ≤ socket then none
  else if (s.get socket.toNat).magic ≠ atSocketMagic then none
  else some socket.toNat

/-- `none` if `sock` is null. -/
def atDoEventChanges (s : Sockets) (sock : Option Nat) (event : AtEvent) (isPlus : Bool) :
    Option Sockets :=
  sock.map fun i => s.modify i fun a =>
    match event with
    | .send => { a with sendevent := if isPlus then 1 else 0 }
    | .recv => { a with rcvevent := count a.rcvevent isPlus }
    | .error => { a with errevent := count a.errevent isPlus }

def atDoEventClean (s : Sockets) (sock : Option Nat) (event : AtEvent) : Option Sockets :=
  sock.map fun i => s.modify i fun a =>
    match event with
    | .send => { a with sendevent := 0 }
    | .recv => { a with rcvevent := 0 }
    | .error => { a with errevent := 0 }

/-- `lock`, `sem` and `mutex` say whether `at_slock`, `recv_notice` and `recv_lock` can be
created. -/
def allocSocket (s : Sockets) (lock sem mutex : Bool) : Option Nat × Sockets :=
  if s.slock = false ∧ lock = false then (none, s)
  else
    let s : Sockets := { s with slock := true }
    let idx : Nat := s.table.findIdx fun sock => sock.magic == 0
    if idx = s.table.length then (none, s)
    else
      let s := s.modify idx fun sock =>
        { sock with
          magic := atSocketMagic
          socket := idx
          state := .none
          rcvevent := 0
          sendevent := 0
          errevent := 0
          recvNotice := sem }
      if sem = false then (none, s)
      else
        let s := s.modify idx fun sock => { sock with recvLock := mutex }
        if mutex = false then (none, s) else (some idx, s)

/-- `at_socket` from the call of `alloc_socket` on. -/
def start (s : Sockets) (type : AtSocketType) (lock sem mutex : Bool) : Int × Sockets :=
  match s.allocSocket lock sem mutex with
  | (none, s) => (0, s)
  | (some i, s) =>
    let s := s.modify i fun sock => { sock with type }
    ((s.get i).socket, s)

def atSocket (s : Sockets) (type : Int) (lock sem mutex : Bool) : Int × Sockets :=
  if type = sockStream then s.start .tcp lock sem mutex
  else if type = sockDgram then s.start .udp lock sem mutex
  else (-1, s)

def freeSocket (s : Sockets) (i : Nat) : Sockets := s.modify i fun _ => {}

/-- `closed` is the device's answer to `at_closesocket`. -/
def atClosesocket (s : Sockets) (socket closed : Int) : Int × Sockets :=
  if s.devOps = false then (-1, s)
  else
    match s.atGetSocket socket with
    | none => (-1, s)
    | some i =>
      let lastState := (s.get i).state
      let s := s.modify i fun sock => { sock with state := .closed }
      if lastState = .connect ∧ closed ≠ 0 then (-1, s.freeSocket i) else (0, s.freeSocket i)

def connectExit (s : Sockets) (sock : Option Nat) (result : Int) : Option (Int × Sockets) :=
  (if result < 0 then s.atDoEventChanges sock .error true else some s).bind fun s =>
    (s.atDoEventChanges sock .send true).map fun s => (result, s)

/-- `none` if a null pointer is followed. `connected` is the device's answer to `at_connect`. -/
def atConnect (s : Sockets) (socket connected : Int) : Option (Int × Sockets) :=
  if s.devOps = false then some (-1, s)
  else
    match s.atGetSocket socket with
    | none => s.connectExit none (-1)
    | some i =>
      if (s.get i).state ≠ .none then s.connectExit (some i) (-1)
      else if connected < 0 then s.connectExit (some i) (-1)
      else (s.modify i fun sock => { sock with state := .connect }).connectExit (some i) 0

def sendtoExit (s : Sockets) (sock : Option Nat) (result len : Int) : Option (Int × Sockets) :=
  if result < 0 then (s.atDoEventChanges sock .error true).map fun s => (result, s)
  else some (len, s)

/-- `at_send` of the device and the exit. -/
def sendVia (s : Sockets) (i : Nat) (sent : Int) : Option (Int × Sockets) :=
  if sent < 0 then s.sendtoExit (some i) (-1) sent else s.sendtoExit (some i) 0 sent

/-- The first two exits leave before `sock` has a value; that it is not a socket is said as for a
null pointer. `data` and `dest` say whether the pointers are not null. -/
def atSendto (s : Sockets) (socket : Int) (data : Bool) (size : Nat) (dest : Bool)
    (connected sent : Int) : Option (Int × Sockets) :=
  if s.devOps = false then s.sendtoExit none (-1) 0
  else if data = false ∨ size = 0 then s.sendtoExit none (-1) 0
  else
    match s.atGetSocket socket with
    | none => s.sendtoExit none (-1) 0
    | some i =>
      match (s.get i).type with
      | .tcp =>
        if (s.get i).state ≠ .connect then s.sendtoExit (some i) (-1) 0 else s.sendVia i sent
      | .udp =>
        if dest = true ∧ (s.get i).state = .none then
          if connected < 0 then s.sendtoExit (some i) (-1) 0
          else (s.modify i fun sock => { sock with state := .connect }).sendVia i sent
        else s.sendVia i sent
      | .invalid => s.sendtoExit (some i) (-1) 0

def recvfromExit (s : Sockets) (sock : Option Nat) (r : Reading) : Option (Int × Sockets) :=
  if 0 < r.recvLen then
    (s.atDoEventChanges sock .recv false).bind fun s =>
      (if r.more then s.atDoEventChanges sock .recv true else s.atDoEventClean sock .recv).map
        fun s => (AtStream.toInt r.recvLen, s)
  else (s.atDoEventChanges sock .error true).map fun s => (r.result, s)

/-- The part of `at_recvfrom` behind the connection of a UDP socket. -/
def receive (s : Sockets) (i : Nat) (reading : Reading) : Option (Int × Sockets) :=
  match (s.get i).state with
  | .closed => s.recvfromExit (some i) ⟨0, 0, false⟩
  | .connect => s.recvfromExit (some i) reading
  | _ => s.recvfromExit (some i) ⟨0, -1, false⟩

def atRecvfrom (s : Sockets) (socket : Int) (mem : Bool) (len : Nat) (peer : Bool)
    (connected : Int) (reading : Reading) : Option (Int × Sockets) :=
  if mem = false ∨ len = 0 then some (-1, s)
  else if s.devOps = false then some (-1, s)
  else
    match s.atGetSocket socket with
    | none => s.recvfromExit none ⟨0, -1, false⟩
    | some i =>
      if peer = true ∧ (s.get i).type = .udp ∧ (s.get i).state = .none then
        if connected < 0 then s.recvfromExit (some i) ⟨0, -1, false⟩
        else (s.modify i fun sock => { sock with state := .connect }).receive i reading
      else s.receive i reading

end Sockets

/-! ## Runs -/

/-- The calls, each with what the allocations and the device come to; `register` is
`at_scoket_device_register`. -/
inductive Event
  | register
  | socket (type : Int) (lock sem mutex : Bool)
  | connect (socket connected : Int)
  | sendto (socket : Int) (data : Bool) (size : Nat) (dest : Bool) (connected sent : Int)
  | recvfrom (socket : Int) (mem : Bool) (len : Nat) (peer : Bool) (connected : Int)
    (reading : Reading)
  | closesocket (socket closed : Int)
  deriving DecidableEq, Repr

/-- The result and the table after a call, `none` if it follows a pointer to no socket. -/
def Sockets.call (s : Sockets) : Event → Option (Int × Sockets)
  | .register => some (0, { s with devOps := true })
  | .socket type lock sem mutex => some (s.atSocket type lock sem mutex)
  | .connect socket connected => s.atConnect socket connected
  | .sendto socket data size dest connected sent => s.atSendto socket data size dest connected sent
  | .recvfrom socket mem len peer connected reading =>
    s.atRecvfrom socket mem len peer connected reading
  | .closesocket socket closed => some (s.atClosesocket socket closed)

/-- `live` remembers the sockets that were handed out and not closed. -/
structure System where
  sockets : Sockets
  live : List Nat
  deriving DecidableEq, Repr

namespace System

def liveAfter (s : System) : Event → List Nat
  | .socket type lock sem mutex =>
    if type = sockStream ∨ type = sockDgram then
      match (s.sockets.allocSocket lock sem mutex).1 with
      | some i => i :: s.live
      | none => s.live
    else s.live
  | .closesocket socket _ =>
    if s.sockets.devOps then s.live.filter fun i : Nat => (i : Int) ≠ socket else s.live
  | _ => s.live

/-- Nothing is said of what comes after a pointer to no socket is followed. -/
def step (s : System) (e : Event) : Option System :=
  match s.sockets.call e with
  | some (_, sockets) => some ⟨sockets, s.liveAfter e⟩
  | none => some s

/-- No socket yet, in a table of `atSocketsNum`. -/
def initial (atSocketsNum : Nat) : System :=
  ⟨⟨List.replicate atSocketsNum {}, false, false⟩, []⟩

def Live (s : System) (socket : Int) : Prop := ∃ i ∈ s.live, (i : Int) = socket

end System

/-- The mark of a slot. -/
def Sockets.magicAt (s : Sockets) (i : Nat) : Option Nat := s.table[i]?.map AtSocket.magic

def Sockets.Free (s : Sockets) (i : Nat) : Prop := s.magicAt i = some 0

/-- The number that a call other than `at_socket` is about. -/
def Event.target : Event → Option Int
  | .connect n _ => some n
  | .sendto n .. => some n
  | .recvfrom n .. => some n
  | .closesocket n _ => some n
  | _ => none

/-- A new socket has a number that none of the others has, or the number is negative and no slot is
lost; and a call on what is no socket returns -1. -/
def System.Meets (s : System) (e : Event) : Prop :=
  match e with
  | .socket .. => ∃ result sockets, s.sockets.call e = some (result, sockets) ∧
      ((∃ i : Nat, result = i ∧ i ∉ s.live ∧ s.liveAfter e = i :: s.live) ∨
        (result < 0 ∧ s.liveAfter e = s.live ∧ ∀ i, s.sockets.Free i → sockets.Free i))
  | _ => ∀ socket, e.target = some socket → ¬s.Live socket →
      ∃ sockets, s.sockets.call e = some (-1, sockets)

/-- A socket of a known type finds a slot and all it needs; only `at_closesocket` is called for a
number that is no socket, or a call that ends before it looks for one. -/
def System.Sound (s : System) : Event → Prop
  | .socket type lock sem mutex => type = sockStream ∨ type = sockDgram →
      (s.sockets.slock = true ∨ lock = true) ∧ (∃ i, s.sockets.Free i) ∧ sem = true ∧ mutex = true
  | .connect socket _ => s.sockets.devOps = true → s.Live socket
  | .sendto socket .. => s.Live socket
  | .recvfrom socket mem len .. =>
    mem = true → len ≠ 0 → s.sockets.devOps = true → s.Live socket
  | _ => True

/-! ## Marks -/

namespace Sockets
variable {s s' : Sockets} {i j : Nat} {f : AtSocket → AtSocket} {socket : Int}

theorem magicAt_modify_self (i : Nat) (f : AtSocket → AtSocket) :
    (s.modify i f).magicAt i = s.table[i]?.map fun a => (f a).magic := by
  unfold magicAt modify
  rw [List.getElem?_modify_eq]
  exact Option.map_map _ _ _

theorem magicAt_modify_ne (h : i ≠ j) (f : AtSocket → AtSocket) :
    (s.modify i f).magicAt j = s.magicAt j := by
  unfold magicAt modify
  rw [List.getElem?_modify_ne _ _ h]

/-- Only the other fields of a socket change. -/
def SameMarks (s s' : Sockets) : Prop := ∀ i, s'.magicAt i = s.magicAt i

theorem SameMarks.refl (s : Sockets) : s.SameMarks s := fun _ => rfl

theorem SameMarks.trans {t : Sockets} (h : s.SameMarks s') (h' : s'.SameMarks t) :
    s.SameMarks t := fun i => (h' i).trans (h i)

theorem sameMarks_modify (i : Nat) (hf : ∀ a, (f a).magic = a.magic) :
    s.SameMarks (s.modify i f) := by
  intro j
  by_cases hij : i = j
  · subst hij
    rw [magicAt_modify_self]
    exact congrArg (Option.map · _) (funext hf)
  · exact magicAt_modify_ne hij f

theorem atDoEventChanges_marks {sock : Option Nat} {event : AtEvent} {isPlus : Bool}
    (h : s.atDoEventChanges sock event isPlus = some s') : s.SameMarks s' := by
  obtain ⟨i, -, rfl⟩ := Option.map_eq_some_iff.mp h
  exact sameMarks_modify i fun a => by cases event <;> rfl

theorem atDoEventClean_marks {sock : Option Nat} {event : AtEvent}
    (h : s.atDoEventClean sock event = some s') : s.SameMarks s' := by
  obtain ⟨i, -, rfl⟩ := Option.map_eq_some_iff.mp h
  exact sameMarks_modify i fun a => by cases event <;> rfl

theorem connectExit_marks {sock : Option Nat} {result r : Int}
    (h : s.connectExit sock result = some (r, s')) : s.SameMarks s' := by
  obtain ⟨t, ht, h⟩ := Option.bind_eq_some_iff.mp h
  obtain ⟨u, hu, heq⟩ := Option.map_eq_some_iff.mp h
  obtain rfl := (Prod.mk.inj heq).2
  have hst : s.SameMarks t := by
    split at ht
    · exact atDoEventChanges_marks ht
    · exact Option.some.inj ht ▸ .refl s
  exact hst.trans (atDoEventChanges_marks hu)

theorem sendtoExit_marks {sock : Option Nat} {result len r : Int}
    (h : s.sendtoExit sock result len = some (r, s')) : s.SameMarks s' := by
  unfold sendtoExit at h
  split at h
  · obtain ⟨u, hu, heq⟩ := Option.map_eq_some_iff.mp h
    obtain rfl := (Prod.mk.inj heq).2
    exact atDoEventChanges_marks hu
  · obtain rfl := (Prod.mk.inj (Option.some.inj h)).2
    exact .refl s

theorem recvfromExit_marks {sock : Option Nat} {reading : Reading} {r : Int}
    (h : s.recvfromExit sock reading = some (r, s')) : s.SameMarks s' := by
  unfold recvfromExit at h
  split at h
  · obtain ⟨t, ht, h⟩ := Option.bind_eq_some_iff.mp h
    obtain ⟨u, hu, heq⟩ := Option.map_eq_some_iff.mp h
    obtain rfl := (Prod.mk.inj heq).2
    refine (atDoEventChanges_marks ht).trans ?_
    split at hu
    · exact atDoEventChanges_marks hu
    · exact atDoEventClean_marks hu
  · obtain ⟨u, hu, heq⟩ := Option.map_eq_some_iff.mp h
    obtain rfl := (Prod.mk.inj heq).2
    exact atDoEventChanges_marks hu

theorem sendVia_marks {sent r : Int} (h : s.sendVia i sent = some (r, s')) : s.SameMarks s' := by
  unfold sendVia at h
  split at h <;> exact sendtoExit_marks h

theorem receive_marks {reading : Reading} {r : Int} (h : s.receive i reading = some (r, s')) :
    s.SameMarks s' := by
  unfold receive at h
  split at h <;> exact recvfromExit_marks h

theorem sameMarks_connected (i : Nat) :
    s.SameMarks (s.modify i fun sock => { sock with state := .connect }) :=
  sameMarks_modify i fun _ => rfl

theorem atConnect_marks {connected r : Int} (h : s.atConnect socket connected = some (r, s')) :
    s.SameMarks s' := by
  unfold atConnect at h
  split at h
  · obtain rfl := (Prod.mk.inj (Option.some.inj h)).2
    exact .refl s
  · split at h
    · exact connectExit_marks h
    · split at h
      · exact connectExit_marks h
      · split at h
        · exact connectExit_marks h
        · exact (sameMarks_connected _).trans (connectExit_marks h)

theorem atSendto_marks {data dest : Bool} {size : Nat} {connected sent r : Int}
    (h : s.atSendto socket data size dest connected sent = some (r, s')) : s.SameMarks s' := by
  unfold atSendto at h
  split at h
  · exact sendtoExit_marks h
  split at h
  · exact sendtoExit_marks h
  split at h
  · exact sendtoExit_marks h
  split at h
  · split at h
    · exact sendtoExit_marks h
    · exact sendVia_marks h
  · split at h
    · split at h
      · exact sendtoExit_marks h
      · exact (sameMarks_connected _).trans (sendVia_marks h)
    · exact sendVia_marks h
  · exact sendtoExit_marks h

theorem atRecvfrom_marks {mem peer : Bool} {len : Nat} {connected r : Int} {reading : Reading}
    (h : s.atRecvfrom socket mem len peer connected reading = some (r, s')) : s.SameMarks s' := by
  unfold atRecvfrom at h
  split at h
  · obtain rfl := (Prod.mk.inj (Option.some.inj h)).2
    exact .refl s
  split at h
  · obtain rfl := (Prod.mk.inj (Option.some.inj h)).2
    exact .refl s
  split at h
  · exact recvfromExit_marks h
  split at h
  · split at h
    · exact recvfromExit_marks h
    · exact (sameMarks_connected _).trans (receive_marks h)
  · exact receive_marks h

/-! ## Finding and taking a slot -/

theorem atGetSocket_eq_some_iff :
    s.atGetSocket socket = some i ↔ (i : Int) = socket ∧ s.magicAt i = some atSocketMagic := by
  unfold atGetSocket magicAt get
  by_cases hout : socket < 0 ∨ (s.table.length : Int) ≤ socket
  · rw [if_pos hout]
    refine ⟨fun h => (by cases h), fun ⟨hi, hmagic⟩ => ?_⟩
    obtain ⟨a, ha, -⟩ := Option.map_eq_some_iff.mp hmagic
    have hlt := (List.getElem?_eq_some_iff.mp ha).1
    omega
  · rw [if_neg hout]
    obtain ⟨n, rfl⟩ := Int.eq_ofNat_of_zero_le (not_lt.mp fun h => hout (.inl h))
    have hlt : n < s.table.length := by omega
    rw [Int.toNat_natCast, List.getElem?_eq_getElem hlt, Option.getD_some,
      Option.ite_none_left_eq_some, Option.some.injEq, Int.natCast_inj, not_not, eq_comm (a := n)]
    constructor
    · rintro ⟨hmagic, rfl⟩
      rw [List.getElem?_eq_getElem hlt]
      exact ⟨rfl, congrArg some hmagic⟩
    · rintro ⟨rfl, hmagic⟩
      rw [List.getElem?_eq_getElem hlt] at hmagic
      exact ⟨Option.some.inj hmagic, rfl⟩

theorem free_iff : s.Free i ↔ ∃ h : i < s.table.length, s.table[i].magic = 0 := by
  unfold Free magicAt
  rw [Option.map_eq_some_iff]
  constructor
  · rintro ⟨a, ha, hzero⟩
    obtain ⟨hlt, rfl⟩ := List.getElem?_eq_some_iff.mp ha
    exact ⟨hlt, hzero⟩
  · rintro ⟨hlt, hzero⟩
    exact ⟨_, List.getElem?_eq_getElem hlt, hzero⟩

/-- `alloc_socket` has a slot and all it needs, or returns none. -/
theorem allocSocket_cases (s : Sockets) (lock sem mutex : Bool) :
    ((s.slock = true ∨ lock = true) ∧ sem = true ∧ mutex = true ∧ ∃ i t, s.Free i ∧
        s.allocSocket lock sem mutex = (some i, t) ∧ t.magicAt i = some atSocketMagic ∧
        (t.get i).socket = i ∧ ∀ j ≠ i, t.magicAt j = s.magicAt j) ∨
      (¬((s.slock = true ∨ lock = true) ∧ (∃ i, s.Free i) ∧ sem = true ∧ mutex = true) ∧
        ∃ t, s.allocSocket lock sem mutex = (none, t)) := by
  unfold allocSocket
  by_cases hlock : s.slock = false ∧ lock = false
  · rw [if_pos hlock]
    refine .inr ⟨fun h => ?_, s, rfl⟩
    rcases h.1 with h | h
    · cases hlock.1.symm.trans h
    · cases hlock.2.symm.trans h
  rw [if_neg hlock]
  have hlock' : s.slock = true ∨ lock = true := by
    by_contra h
    rw [not_or, Bool.not_eq_true, Bool.not_eq_true] at h
    exact hlock h
  dsimp only
  by_cases hidx : (s.table.findIdx fun sock => sock.magic == 0) = s.table.length
  · rw [if_pos hidx]
    refine .inr ⟨fun h => ?_, _, rfl⟩
    obtain ⟨i, hi⟩ := h.2.1
    obtain ⟨hlt, hzero⟩ := free_iff.mp hi
    have hnone := List.findIdx_eq_length.mp hidx _ (List.getElem_mem hlt)
    rw [hzero] at hnone
    cases hnone
  rw [if_neg hidx]
  have hlt : (s.table.findIdx fun sock => sock.magic == 0) < s.table.length :=
    Nat.lt_of_le_of_ne List.findIdx_le_length hidx
  have hfree : s.Free (s.table.findIdx fun sock => sock.magic == 0) :=
    free_iff.mpr ⟨hlt, by simpa using List.findIdx_getElem (w := hlt)⟩
  generalize (s.table.findIdx fun sock => sock.magic == 0) = i at *
  cases sem with
  | false => exact .inr ⟨fun h => (by cases h.2.2.1), _, rfl⟩
  | true =>
    cases mutex with
    | false => exact .inr ⟨fun h => (by cases h.2.2.2), _, rfl⟩
    | true =>
      refine .inl ⟨hlock', rfl, rfl, i, _, hfree, rfl, ?_, ?_, fun j hj => ?_⟩
      · refine Eq.trans (sameMarks_modify i ?_ i) ?_
        · exact fun _ => rfl
        rw [magicAt_modify_self]
        dsimp only
        rw [List.getElem?_eq_getElem hlt]
        rfl
      · unfold get modify
        dsimp only
        rw [List.getElem?_modify_eq, List.getElem?_modify_eq, List.getElem?_eq_getElem hlt]
        rfl
      · rw [magicAt_modify_ne (Ne.symm hj), magicAt_modify_ne (Ne.symm hj)]
        rfl

end Sockets

/-! ## Every run -/

namespace System
variable {s s' : System} {e : Event} {socket : Int}

/-- The live sockets are those that bear the mark. -/
structure Inv (s : System) : Prop where
  marked : ∀ i ∈ s.live, s.sockets.magicAt i = some atSocketMagic
  unmarked : ∀ i, i ∉ s.live → s.sockets.magicAt i = none ∨ s.sockets.Free i

theorem Inv.get_live (h : s.Inv) {i : Nat} :
    s.sockets.atGetSocket socket = some i ↔ i ∈ s.live ∧ (i : Int) = socket := by
  rw [Sockets.atGetSocket_eq_some_iff, and_comm]
  refine and_congr_left fun _ => ⟨fun hmagic => ?_, h.marked i⟩
  by_contra hi
  rcases h.unmarked i hi with hu | hu
  · cases hu.symm.trans hmagic
  · cases Option.some.inj (hu.symm.trans hmagic)

theorem Inv.get_dead (h : s.Inv) (hdead : ¬s.Live socket) :
    s.sockets.atGetSocket socket = none := by
  refine Option.eq_none_iff_forall_ne_some.mpr fun i hi => hdead ?_
  obtain ⟨hmem, heq⟩ := h.get_live.mp hi
  exact ⟨i, hmem, heq⟩

theorem Inv.sameMarks (h : s.Inv) {t : Sockets} (hsame : s.sockets.SameMarks t) :
    Inv ⟨t, s.live⟩ where
  marked i hi := (hsame i).trans (h.marked i hi)
  unmarked i hi := by
    unfold Sockets.Free
    rw [hsame i]
    exact h.unmarked i hi

/-- A socket of a known type is made, or `at_socket` returns `RT_NULL`. -/
theorem Inv.start (h : s.Inv) (type : AtSocketType) (lock sem mutex : Bool) :
    (((s.sockets.slock = true ∨ lock = true) ∧ (∃ i, s.sockets.Free i) ∧ sem = true ∧
        mutex = true) ∧ ∃ i, i ∉ s.live ∧ (s.sockets.allocSocket lock sem mutex).1 = some i ∧
      ∃ t, s.sockets.start type lock sem mutex = ((i : Int), t) ∧ Inv ⟨t, i :: s.live⟩) ∨
    (¬((s.sockets.slock = true ∨ lock = true) ∧ (∃ i, s.sockets.Free i) ∧ sem = true ∧
        mutex = true) ∧ (s.sockets.allocSocket lock sem mutex).1 = none ∧
      ∃ t, s.sockets.start type lock sem mutex = (0, t)) := by
  obtain ⟨hlock, hsem, hmutex, i, t, hfree, halloc, hmark, hsocket, hothers⟩ | ⟨hnot, t, halloc⟩ :=
    s.sockets.allocSocket_cases lock sem mutex
  · have hout : i ∉ s.live := fun hi => by
      cases Option.some.inj (hfree.symm.trans (h.marked i hi))
    refine .inl ⟨⟨hlock, ⟨i, hfree⟩, hsem, hmutex⟩, i, hout, by rw [halloc],
      t.modify i fun sock => { sock with type }, ?_, ?_⟩
    · unfold Sockets.start
      rw [halloc]
      have hget : ((t.modify i fun sock => { sock with type }).get i).socket =
          (t.get i).socket := by
        unfold Sockets.get Sockets.modify
        rw [List.getElem?_modify_eq]
        cases t.table[i]? <;> rfl
      dsimp only
      rw [hget, hsocket]
    · have hinv : Inv ⟨t, i :: s.live⟩ := by
        refine ⟨fun j hj => ?_, fun j hj => ?_⟩
        · by_cases hji : j = i
          · exact hji ▸ hmark
          · exact (hothers j hji).trans (h.marked j ((List.mem_cons.mp hj).resolve_left hji))
        · rw [List.mem_cons, not_or] at hj
          unfold Sockets.Free
          rw [hothers j hj.1]
          exact h.unmarked j hj.2
      exact hinv.sameMarks (Sockets.sameMarks_modify i fun _ => rfl)
  · refine .inr ⟨hnot, by rw [halloc], t, ?_⟩
    unfold Sockets.start
    rw [halloc]

theorem atSocket_cases (s : Sockets) (type : Int) (lock sem mutex : Bool) :
    ((type = sockStream ∨ type = sockDgram) ∧
        ∃ t, s.atSocket type lock sem mutex = s.start t lock sem mutex) ∨
      (¬(type = sockStream ∨ type = sockDgram) ∧ s.atSocket type lock sem mutex = (-1, s)) := by
  unfold Sockets.atSocket
  by_cases hstream : type = sockStream
  · exact .inl ⟨.inl hstream, _, if_pos hstream⟩
  by_cases hdgram : type = sockDgram
  · exact .inl ⟨.inr hdgram, _, (if_neg hstream).trans (if_pos hdgram)⟩
  · exact .inr ⟨not_or.mpr ⟨hstream, hdgram⟩, (if_neg hstream).trans (if_neg hdgram)⟩

theorem Inv.meets_iff (h : s.Inv) (e : Event) : s.Meets e ↔ s.Sound e := by
  cases e with
  | register => exact ⟨fun _ => trivial, fun _ n hn => by cases hn⟩
  | socket type lock sem mutex =>
    unfold Meets Sound liveAfter Sockets.call
    dsimp only
    obtain ⟨htype, t, hstart⟩ | ⟨htype, hstart⟩ := atSocket_cases s.sockets type lock sem mutex
    · rw [hstart, if_pos htype]
      obtain ⟨hgood, i, hout, halloc, u, hres, -⟩ | ⟨hnot, halloc, u, hres⟩ :=
        h.start t lock sem mutex
      · rw [hres, halloc]
        exact ⟨fun _ _ => hgood, fun _ => ⟨_, _, rfl, .inl ⟨i, rfl, hout, rfl⟩⟩⟩
      · rw [hres, halloc]
        refine ⟨fun hmeets => ?_, fun hsound => absurd (hsound htype) hnot⟩
        obtain ⟨result, v, heq, hnew | ⟨hneg, -⟩⟩ := hmeets
        · obtain ⟨i, -, -, hlive⟩ := hnew
          have hlen : s.live.length = (i :: s.live).length := congrArg List.length hlive
          rw [List.length_cons] at hlen
          omega
        · obtain ⟨rfl, -⟩ := Prod.mk.inj (Option.some.inj heq)
          exact absurd hneg (Int.lt_irrefl 0)
    · rw [hstart, if_neg htype]
      exact ⟨fun _ htype' => absurd htype' htype,
        fun _ => ⟨_, _, rfl, .inr ⟨by decide, rfl, fun _ hi => hi⟩⟩⟩
  | connect n connected =>
    constructor
    · intro hmeets hops
      by_contra hdead
      obtain ⟨t, ht⟩ := hmeets n rfl hdead
      have hcall : s.sockets.atConnect n connected = none := by
        unfold Sockets.atConnect
        rw [hops, h.get_dead hdead]
        rfl
      cases hcall.symm.trans ht
    · rintro hsound _ ⟨⟩ hdead
      have hops : s.sockets.devOps = false := eq_false_of_ne_true fun hops => hdead (hsound hops)
      exact ⟨s.sockets, if_pos hops⟩
  | sendto n data size dest connected sent =>
    constructor
    · intro hmeets
      by_contra hdead
      obtain ⟨t, ht⟩ := hmeets n rfl hdead
      have hcall : s.sockets.atSendto n data size dest connected sent = none := by
        unfold Sockets.atSendto
        rw [h.get_dead hdead]
        split
        · rfl
        · split <;> rfl
      cases hcall.symm.trans ht
    · rintro hsound _ ⟨⟩ hdead
      exact absurd hsound hdead
  | recvfrom n mem len peer connected reading =>
    constructor
    · intro hmeets hmem hlen hops
      by_contra hdead
      obtain ⟨t, ht⟩ := hmeets n rfl hdead
      have hcall : s.sockets.atRecvfrom n mem len peer connected reading = none := by
        unfold Sockets.atRecvfrom
        rw [h.get_dead hdead, if_neg, if_neg]
        · rfl
        · rw [hops]
          decide
        · rw [hmem]
          exact fun h => h.elim (fun h => by cases h) hlen
      cases hcall.symm.trans ht
    · rintro hsound _ ⟨⟩ hdead
      refine ⟨s.sockets, ?_⟩
      change s.sockets.atRecvfrom n mem len peer connected reading = _
      unfold Sockets.atRecvfrom
      by_cases hargs : mem = false ∨ len = 0
      · exact if_pos hargs
      · rw [if_neg hargs]
        refine if_pos (eq_false_of_ne_true fun hops => hdead ?_)
        rw [not_or, Bool.not_eq_false] at hargs
        exact hsound hargs.1 hargs.2 hops
  | closesocket n closed =>
    refine ⟨fun _ => trivial, ?_⟩
    rintro _ _ ⟨⟩ hdead
    refine ⟨s.sockets, congrArg some ?_⟩
    unfold Sockets.atClosesocket
    rw [h.get_dead hdead]
    split <;> rfl

theorem Inv.close (h : s.Inv) (n closed : Int) :
    Inv ⟨(s.sockets.atClosesocket n closed).2, s.liveAfter (.closesocket n closed)⟩ := by
  unfold Sockets.atClosesocket liveAfter
  dsimp only
  by_cases hops : s.sockets.devOps = false
  · rw [if_pos hops, if_neg (by rw [hops]; decide)]
    exact h
  rw [if_neg hops, if_pos (Bool.not_eq_false _ ▸ hops)]
  cases hget : s.sockets.atGetSocket n with
  | none =>
    have hsame : (s.live.filter fun i : Nat => (i : Int) ≠ n) = s.live := by
      refine List.filter_eq_self.mpr fun i hi => decide_eq_true fun hin => ?_
      cases hget.symm.trans (h.get_live.mpr ⟨hi, hin⟩)
    rw [hsame]
    exact h
  | some i =>
    obtain ⟨hi, rfl⟩ := h.get_live.mp hget
    have hfreed : Inv ⟨(s.sockets.modify i fun sock => { sock with state := .closed }).freeSocket i,
        s.live.filter fun j : Nat => (j : Int) ≠ i⟩ := by
      refine ⟨fun j hj => ?_, fun j hj => ?_⟩
      · obtain ⟨hj, hji⟩ := List.mem_filter.mp hj
        have hne : i ≠ j := fun heq => of_decide_eq_true hji (congrArg _ heq.symm)
        unfold Sockets.freeSocket
        rw [Sockets.magicAt_modify_ne hne, Sockets.magicAt_modify_ne hne]
        exact h.marked j hj
      · by_cases hij : i = j
        · subst hij
          unfold Sockets.Free Sockets.freeSocket
          rw [Sockets.magicAt_modify_self]
          cases (s.sockets.modify i fun sock => { sock with state := .closed }).table[i]? with
          | none => exact .inl rfl
          | some a => exact .inr rfl
        · unfold Sockets.Free Sockets.freeSocket
          rw [Sockets.magicAt_modify_ne hij, Sockets.magicAt_modify_ne hij]
          refine h.unmarked j fun hmem => hj (List.mem_filter.mpr ⟨hmem, decide_eq_true ?_⟩)
          exact fun heq => hij (Int.natCast_inj.mp heq).symm
    dsimp only
    split <;> exact hfreed

theorem Inv.step (h : s.Inv) (hsound : s.Sound e) (hstep : s.step e = some s') : s'.Inv := by
  unfold System.step at hstep
  cases hcall : s.sockets.call e with
  | none =>
    rw [hcall] at hstep
    exact Option.some.inj hstep ▸ h
  | some res =>
    obtain ⟨result, t⟩ := res
    rw [hcall] at hstep
    obtain rfl := Option.some.inj hstep
    cases e with
    | register =>
      obtain rfl := (Prod.mk.inj (Option.some.inj hcall)).2
      exact h.sameMarks (.refl _)
    | socket type lock sem mutex =>
      have hres : s.sockets.atSocket type lock sem mutex = (result, t) := Option.some.inj hcall
      unfold liveAfter
      dsimp only
      obtain ⟨htype, u, hstart⟩ | ⟨htype, hstart⟩ := atSocket_cases s.sockets type lock sem mutex
      · rw [if_pos htype]
        obtain ⟨-, i, -, halloc, v, hv, hinv⟩ | ⟨hnot, -⟩ := h.start u lock sem mutex
        · obtain ⟨-, rfl⟩ := Prod.mk.inj ((hstart.trans hv).symm.trans hres)
          rw [halloc]
          exact hinv
        · exact absurd (hsound htype) hnot
      · rw [if_neg htype]
        obtain ⟨-, rfl⟩ := Prod.mk.inj (hstart.symm.trans hres)
        exact h
    | connect n connected => exact h.sameMarks (Sockets.atConnect_marks hcall)
    | sendto n data size dest connected sent => exact h.sameMarks (Sockets.atSendto_marks hcall)
    | recvfrom n mem len peer connected reading =>
      exact h.sameMarks (Sockets.atRecvfrom_marks hcall)
    | closesocket n closed =>
      have hres := Option.some.inj hcall
      have hinv := h.close n closed
      rw [hres] at hinv
      exact hinv

theorem Inv.initial (atSocketsNum : Nat) : (initial atSocketsNum).Inv where
  marked := fun _ hi => by cases hi
  unmarked i _ := by
    unfold Sockets.Free Sockets.magicAt System.initial
    dsimp only
    rw [List.getElem?_replicate]
    split
    · exact .inr rfl
    · exact .inl rfl

end System

/-- Every call does what it should exactly as long as each is sound. -/
theorem sockets_along_iff (atSocketsNum : Nat) (es : List Event) :
    Along System.step System.Meets (System.initial atSocketsNum) es ↔
      Along System.step System.Sound (System.initial atSocketsNum) es :=
  along_iff_along (J := System.Inv) (fun _ _ _ h hsound hstep => h.step hsound hstep)
    (fun _ e _ h _ => h.meets_iff e) (.initial atSocketsNum) es

/-- There is no memory for the semaphore: `at_socket` returns the number of the first socket. -/
theorem out_of_memory :
    ¬∀ atSocketsNum es, Along System.step System.Meets (System.initial atSocketsNum) es := by
  intro h
  obtain ⟨⟨result, t, hcall, hmeets⟩, -⟩ := h 5 [.socket sockStream true false true] _ rfl
  obtain ⟨rfl, -⟩ := Prod.mk.inj (Option.some.inj hcall)
  rcases hmeets with ⟨i, -, -, hlive⟩ | ⟨hneg, -⟩
  · cases hlive
  · exact absurd hneg (by decide)

end ControlRTT.Net.AtSocketTable

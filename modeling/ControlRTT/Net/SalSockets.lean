import ControlRTT.Lib.Runs
import ControlRTT.Lib.SlotTable
import Mathlib.Data.List.Nodup
import Mathlib.Logic.Function.Basic

/-! # The table of sockets

`components/net/sal_socket/src/sal_socket.c`: `socket_new` takes an entry under the lock, but an
entry counts as free until `pf->create` has set `ops`, without the lock; `sal_socket` does not give
the entry back when it fails; `sal_closesocket` frees the object first and clears the entry
afterwards; and `sal_get_socket` reads the object of any entry, also where there is none. Each call
of `sal_socket` and `sal_closesocket` is a list of steps here, which those of other calls may come
between (`sockets_sound`). -/
namespace ControlRTT.Net.SalSockets
open Lib.Runs Lib.SlotTable

def salSocketMagic : Nat := 0x5A10

def afMax : Int := 46

def sockMax : Int := 4

/-- `SOCKET_TABLE_STEP_LEN` -/
def socketTableStepLen : Nat := 4

def rtEnosys : Int := 6

/-- `struct proto_ops`: whether it has the callbacks. -/
structure ProtoOps where
  socket : Bool
  closesocket : Bool
  deriving DecidableEq, Repr

structure SalSocket where
  magic : Nat := 0
  socket : Nat := 0
  domain : Int := 0
  type : Int := 0
  protocol : Int := 0
  ops : Option ProtoOps := none
  userData : Int := 0
  deriving DecidableEq, Repr

/-- `struct sal_socket_table`, whose `max_socket` is the length of `sockets`, and the objects that
are allocated. -/
structure Table where
  sockets : List (Option Nat)
  mem : Nat → Option SalSocket

inductive Got where
  | null
  | sock (p : Nat)
  | fault
  deriving DecidableEq, Repr

namespace Table

def put (t : Table) (p : Nat) (sock : SalSocket) : Table :=
  { t with mem := Function.update t.mem p (some sock) }

/-- The entry is null, or the `ops` of its object are; the object may also be freed already. -/
def isFree (t : Table) : Option Nat → Bool
  | none => true
  | some p => (t.mem p).all (·.ops.isNone)

/-- `socket_alloc`; `grown` and `fresh` are what `rt_realloc` and `rt_calloc` return. -/
def socketAlloc (salSocketsNum : Nat) (t : Table) (grown : Bool) (fresh : Option Nat) :
    Table × Nat :=
  let (sockets, idx) := alloc t.isFree socketTableStepLen salSocketsNum t.sockets grown fresh
  match fresh with
  | some p =>
    if sockets[idx]? = some (some p) then ({ t.put p {} with sockets }, idx)
    else ({ t with sockets }, idx)
  | none => ({ t with sockets }, idx)

/-- `-1` if there is no entry. -/
def socketNew (salSocketsNum : Nat) (t : Table) (grown : Bool) (fresh : Option Nat) :
    Table × Int :=
  let (t, idx) := t.socketAlloc salSocketsNum grown fresh
  match t.sockets[idx]?.join with
  | none => (t, -1)
  | some p =>
    ({ t with
      mem := Function.update t.mem p ((t.mem p).map fun sock =>
        { sock with socket := idx, magic := salSocketMagic }) }, idx)

def salGetSocket (t : Table) (socket : Int) : Got :=
  if socket < 0 ∨ (t.sockets.length : Int) ≤ socket then .null
  else
    match t.sockets[socket.toNat]?.join with
    | none => .fault
    | some p =>
      match t.mem p with
      | none => .fault
      | some sock => if sock.magic ≠ salSocketMagic then .null else .sock p

end Table

/-- What `pf->create` does: it sets `ops` and succeeds, or fails before or after it has set them. -/
inductive Created
  | created (ops : ProtoOps)
  | failed (ops : Option ProtoOps)
  deriving DecidableEq, Repr

/-- `pf->create` has set `ops` and fails all the same. -/
def Created.failsLate : Created → Bool
  | .failed (some _) => true
  | _ => false

/-- `socket_init` of an object; `family` is `none` if `get_proto_family` finds none. -/
def SalSocket.socketInit (sock : SalSocket) (domain type protocol : Int)
    (family : Option Created) : SalSocket × Int :=
  if domain < 0 ∨ afMax < domain then (sock, -1)
  else if type < 0 ∨ sockMax < type then (sock, -2)
  else
    let sock := { sock with domain, type, protocol }
    match family with
    | none => (sock, -3)
    | some (.failed none) => (sock, -4)
    | some (.failed (some ops)) => ({ sock with ops }, -4)
    | some (.created ops) => ({ sock with ops }, 0)

/-- Where a call is. One of `sal_socket` is before `sal_get_socket`, before `socket_init`, or before
`ops->socket`; one of `sal_closesocket` before `ops->closesocket`, before `rt_free`, or before the
entry is cleared; or it has ended. -/
inductive Call
  | made (socket : Nat) (domain type protocol : Int)
  | got (socket sock : Nat) (domain type protocol : Int)
  | ready (socket sock : Nat)
  | closing (socket sock : Nat)
  | freeing (socket sock : Nat)
  | clearing (socket : Nat)
  | ended (result : Int)
  deriving DecidableEq, Repr

/-- The calls so far, of any threads, and the descriptors that `sal_socket` has returned and that
are not closed. `faulted` says that a null pointer was followed or a freed object read. -/
structure System where
  table : Table
  calls : List Call := []
  live : List Nat := []
  faulted : Bool := false

/-- A call begins with the step that has no index; the others go on with the call at the index. -/
inductive Event
  | socket (domain type protocol : Int) (grown : Bool) (fresh : Option Nat)
  | lookup (c : Nat)
  | init (c : Nat) (family : Option Created)
  | protoSocket (c : Nat) (result : Int)
  | closesocket (socket : Int)
  | protoClose (c : Nat) (result : Int)
  | free (c : Nat)
  | clear (c : Nat)
  | getSocket (socket : Int)
  deriving DecidableEq, Repr

namespace System

def fault (s : System) : System := { s with faulted := true }

def goto (s : System) (c : Nat) (call : Call) : System := { s with calls := s.calls.set c call }

def begin (s : System) (call : Call) : System := { s with calls := s.calls ++ [call] }

def lookup (s : System) (c socket : Nat) (domain type protocol : Int) : System :=
  match s.table.salGetSocket socket with
  | .sock p => s.goto c (.got socket p domain type protocol)
  | _ => s.fault

def init (s : System) (c socket p : Nat) (domain type protocol : Int) (family : Option Created) :
    System :=
  match s.table.mem p with
  | none => s.fault
  | some sock =>
    let (sock, retval) := sock.socketInit domain type protocol family
    { s with table := s.table.put p sock }.goto c
      (if retval < 0 then .ended (-1) else .ready socket p)

def protoSocket (s : System) (c p : Nat) (result : Int) : System :=
  match s.table.mem p with
  | none => s.fault
  | some sock =>
    match sock.ops with
    | none => s.fault
    | some ops =>
      if ops.socket = false then s.goto c (.ended (-rtEnosys))
      else if 0 ≤ result then
        { s with
          table := s.table.put p { sock with userData := result }
          live := sock.socket :: s.live }.goto c (.ended sock.socket)
      else s.goto c (.ended (-1))

def closesocket (s : System) (socket : Int) : System :=
  match s.table.salGetSocket socket with
  | .null => s.begin (.ended (-1))
  | .sock p => s.begin (.closing socket.toNat p)
  | .fault => s.fault

def protoClose (s : System) (c socket p : Nat) (result : Int) : System :=
  match s.table.mem p with
  | none => s.fault
  | some sock =>
    match sock.ops with
    | none => s.fault
    | some ops =>
      if ops.closesocket = false then s.goto c (.ended (-rtEnosys))
      else if result = 0 then s.goto c (.freeing socket p)
      else s.goto c (.ended (-1))

/-- The descriptor is no longer live once its object is freed. -/
def free (s : System) (c socket p : Nat) : System :=
  match s.table.mem p with
  | none => s.fault
  | some _ =>
    { s with
      table := { s.table with mem := Function.update s.table.mem p none }
      live := s.live.erase socket }.goto c (.clearing socket)

def clear (s : System) (c socket : Nat) : System :=
  { s with table := { s.table with sockets := s.table.sockets.set socket none } }.goto c (.ended 0)

/-- Nothing is said of what comes after a fault. The allocator returns no object that is in use. -/
def step (salSocketsNum : Nat) (s : System) (e : Event) : Option System :=
  if s.faulted then none
  else
    match e with
    | .socket domain type protocol grown fresh =>
      if ∀ p ∈ fresh, s.table.mem p = none then
        let (table, socket) := s.table.socketNew salSocketsNum grown fresh
        some ({ s with table }.begin
          (if socket < 0 then .ended (-1) else .made socket.toNat domain type protocol))
      else none
    | .lookup c =>
      match s.calls[c]? with
      | some (.made socket domain type protocol) => some (s.lookup c socket domain type protocol)
      | _ => none
    | .init c family =>
      match s.calls[c]? with
      | some (.got socket p domain type protocol) =>
        some (s.init c socket p domain type protocol family)
      | _ => none
    | .protoSocket c result =>
      match s.calls[c]? with
      | some (.ready _ p) => some (s.protoSocket c p result)
      | _ => none
    | .closesocket socket => some (s.closesocket socket)
    | .protoClose c result =>
      match s.calls[c]? with
      | some (.closing socket p) => some (s.protoClose c socket p result)
      | _ => none
    | .free c =>
      match s.calls[c]? with
      | some (.freeing socket p) => some (s.free c socket p)
      | _ => none
    | .clear c =>
      match s.calls[c]? with
      | some (.clearing socket) => some (s.clear c socket)
      | _ => none
    | .getSocket socket => some (if s.table.salGetSocket socket = .fault then s.fault else s)

/-- The table of `sal_init`. -/
def initial (salSocketsNum : Nat) : System where
  table := ⟨List.replicate (min socketTableStepLen salSocketsNum) none, fun _ => none⟩

end System

/-! ## What is asked of the table -/

/-- No two live descriptors are the same, and they stand for different objects. -/
structure System.Keeps (s : System) : Prop where
  intact : s.faulted = false
  nodup : s.live.Nodup
  held : ∀ n ∈ s.live, ∃ p, At s.table.sockets n p ∧ (s.table.mem p).isSome
  distinct : ∀ n ∈ s.live, ∀ m ∈ s.live, ∀ p, At s.table.sockets n p →
    At s.table.sockets m p → n = m

def System.Live (s : System) (socket : Int) : Prop := 0 ≤ socket ∧ socket.toNat ∈ s.live

/-- `sal_get_socket` returns the object of a live descriptor and null for any other number. -/
def System.Gets (s : System) (socket : Int) : Prop :=
  match s.table.salGetSocket socket with
  | .null => ¬s.Live socket
  | .sock p => s.Live socket ∧ At s.table.sockets socket.toNat p
  | .fault => False

/-- The descriptor that a call of `sal_socket` is setting up. -/
def Call.setsUp : Call → Option Nat
  | .made n .. => some n
  | .got n .. => some n
  | .ready n _ => some n
  | _ => none

/-- A `sal_socket` that has failed has left its entry free. -/
def System.GivesBack (s s' : System) (c : Nat) : Prop :=
  ∀ call n result, s.calls[c]? = some call → call.setsUp = some n →
    s'.calls[c]? = some (.ended result) → result < 0 →
      ∃ entry, s'.table.sockets[n]? = some entry ∧ s'.table.isFree entry = true

/-- What is asked of some steps besides: of those that look a descriptor up, and of those where
`sal_socket` may fail once it has an entry. -/
def System.Returns (s s' : System) : Event → Prop
  | .closesocket socket => s.Gets socket
  | .getSocket socket => s.Gets socket
  | .init c _ => s.GivesBack s' c
  | .protoSocket c _ => s.GivesBack s' c
  | _ => True

/-- What each step is to do. -/
def System.Meets (salSocketsNum : Nat) (s : System) (e : Event) : Prop :=
  ∀ s', s.step salSocketsNum e = some s' → s'.Keeps ∧ s.Returns s' e

/-! ## When it does -/

/-- The entry that a call has to itself, although it looks free or is no longer a socket's. -/
def Call.takes : Call → Option Nat
  | .made n .. => some n
  | .got n .. => some n
  | .clearing n => some n
  | _ => none

/-- The descriptor that a call is closing. -/
def Call.closes : Call → Option Nat
  | .closing n _ => some n
  | .freeing n _ => some n
  | _ => none

/-- The object that a call knows, and its entry. -/
def Call.pointer : Call → Option (Nat × Nat)
  | .got n p .. | .ready n p | .closing n p | .freeing n p => some (n, p)
  | _ => none

/-- The number is outside the table, or it is live. -/
def System.Known (s : System) (socket : Int) : Prop :=
  socket < 0 ∨ (s.table.sockets.length : Int) ≤ socket ∨ s.Live socket

/-- The first free entry is not taken by a call that is under way; whoever sets up a socket does not
fail once `ops` are set; and no other numbers are asked for than live descriptors, which no other
call is closing, and such as are outside the table. -/
def System.Sound (s : System) : Event → Prop
  | .socket .. => ∀ call ∈ s.calls, call.takes ≠ some (s.table.sockets.findIdx s.table.isFree)
  | .init _ family => ∀ created ∈ family, created.failsLate = false
  | .protoSocket c result =>
    0 ≤ result ∧ ∀ call ∈ s.calls[c]?, ∀ entry ∈ call.pointer,
      ((s.table.mem entry.2).bind SalSocket.ops).all (·.socket)
  | .closesocket socket => s.Known socket ∧ ∀ call ∈ s.calls, call.closes ≠ some socket.toNat
  | .getSocket socket => s.Known socket
  | _ => True

/-! ## What an entry is used for -/

/-- Nothing, an object that nobody has, a call's, or a live socket's. -/
inductive Use
  | vacant
  | spare
  | made (c : Nat)
  | ready (c : Nat)
  | live
  | closing (c : Nat)
  | clearing (c : Nat)
  deriving DecidableEq, Repr

/-- Whether the entry has an object, and if so whether the object's `ops` are set. -/
def Use.ops : Use → Option Bool
  | .spare | .made _ => some false
  | .ready _ | .live | .closing _ => some true
  | .vacant | .clearing _ => none

def Use.isLive : Use → Bool
  | .live | .closing _ => true
  | _ => false

/-- The call that has the entry. -/
def Use.caller : Use → Option Nat
  | .made c | .ready c | .closing c | .clearing c => some c
  | _ => none

/-- The entry that the call at the index `c` has, and what for. -/
def Call.use (c : Nat) : Call → Option (Nat × Use)
  | .made n .. | .got n .. => some (n, .made c)
  | .ready n _ => some (n, .ready c)
  | .closing n _ | .freeing n _ => some (n, .closing c)
  | .clearing n => some (n, .clearing c)
  | .ended _ => none

theorem Call.caller_of_use {c n : Nat} {call : Call} {u : Use} (h : call.use c = some (n, u)) :
    u.caller = some c := by
  cases call <;> cases h <;> rfl

theorem Call.use_of_pointer {call : Call} {n p : Nat} (h : call.pointer = some (n, p)) (c : Nat) :
    ∃ u, call.use c = some (n, u) := by
  cases call <;> cases h <;> exact ⟨_, rfl⟩

structure Table.Entry (t : Table) (i : Nat) (u : Use) : Prop where
  vacant : u = .vacant → ∀ p, ¬At t.sockets i p
  pointed : ∀ c, u = .clearing c → ∃ p, At t.sockets i p
  object : ∀ b, u.ops = some b → ∃ p sock, At t.sockets i p ∧ t.mem p = some sock ∧
    sock.magic = salSocketMagic ∧ sock.socket = i ∧ sock.ops.isSome = b

/-- The entries are used as said, and no two that have an object have the same. -/
structure Table.Laid (t : Table) (use : Nat → Use) : Prop where
  entry : ∀ i, t.Entry i (use i)
  distinct : ∀ i j p, (use i).ops.isSome → (use j).ops.isSome → At t.sockets i p →
    At t.sockets j p → i = j

section
variable {t t' : Table} {use : Nat → Use} {n p : Nat} {u : Use} {sock : SalSocket}

theorem Table.Laid.update (h : t.Laid use)
    (hat : ∀ j ≠ n, ∀ q, At t'.sockets j q ↔ At t.sockets j q)
    (hmem : ∀ j ≠ n, ∀ q, (use j).ops.isSome → At t.sockets j q → t'.mem q = t.mem q)
    (hentry : t'.Entry n u) (hown : u.ops.isSome → ∀ q, At t'.sockets n q →
      ∀ j ≠ n, (use j).ops.isSome → ¬At t.sockets j q) :
    t'.Laid (Function.update use n u) := by
  constructor
  · intro j
    by_cases hj : j = n
    · subst hj
      rw [Function.update_self]
      exact hentry
    · rw [Function.update_of_ne hj]
      have hold := h.entry j
      refine ⟨fun hu p hp => hold.vacant hu p ((hat j hj p).mp hp),
        fun c hu => (hold.pointed c hu).imp fun p => (hat j hj p).mpr, fun b hb => ?_⟩
      obtain ⟨p, sock, hp, hsock, hrest⟩ := hold.object b hb
      exact ⟨p, sock, (hat j hj p).mpr hp, (hmem j hj p (hb ▸ rfl) hp).trans hsock, hrest⟩
  · intro i j p hi hj hip hjp
    by_cases hin : i = n
    · by_cases hjn : j = n
      · exact hin.trans hjn.symm
      · rw [hin, Function.update_self] at hi
        rw [Function.update_of_ne hjn] at hj
        exact absurd ((hat j hjn p).mp hjp) (hown hi p (hin ▸ hip) j hjn hj)
    · rw [Function.update_of_ne hin] at hi
      by_cases hjn : j = n
      · rw [hjn, Function.update_self] at hj
        exact absurd ((hat i hin p).mp hip) (hown hj p (hjn ▸ hjp) i hin hi)
      · rw [Function.update_of_ne hjn] at hj
        exact h.distinct i j p hi hj ((hat i hin p).mp hip) ((hat j hjn p).mp hjp)

/-- Nobody else has the object. -/
theorem Table.Laid.ne (h : t.Laid use) (hn : (use n).ops.isSome) (hp : At t.sockets n p) {j : Nat}
    (hj : j ≠ n) {q : Nat} (hused : (use j).ops.isSome) (hq : At t.sockets j q) : q ≠ p := by
  rintro rfl
  exact hj (h.distinct j n q hused hn hq hp)

/-- The object of an entry is written. -/
theorem Table.Laid.put (h : t.Laid use) (hn : (use n).ops.isSome) (hp : At t.sockets n p)
    (hmagic : sock.magic = salSocketMagic) (hsocket : sock.socket = n)
    (hu : u.ops = some sock.ops.isSome) : (t.put p sock).Laid (Function.update use n u) := by
  refine h.update (fun _ _ _ => Iff.rfl)
    (fun j hj q hused hq => Function.update_of_ne (h.ne hn hp hj hused hq) _ _)
    ⟨fun hv => ?_, fun c hc => ?_, fun b hb => ?_⟩ fun _ q hq j hj hused hjq =>
      h.ne hn hp hj hused hjq (hq.unique hp)
  · rw [hv] at hu
    cases hu
  · rw [hc] at hu
    cases hu
  · obtain rfl := Option.some.inj (hu.symm.trans hb)
    exact ⟨p, sock, hp, Function.update_self _ _ _, hmagic, hsocket, rfl⟩

/-- An entry changes hands. -/
theorem Table.Laid.retag (h : t.Laid use) {b : Bool} (hn : (use n).ops = some b)
    (hu : u.ops = some b) : t.Laid (Function.update use n u) := by
  obtain ⟨p, sock, hp, hrest⟩ := (h.entry n).object b hn
  have hsome : (use n).ops.isSome := hn ▸ rfl
  refine h.update (fun _ _ _ => Iff.rfl) (fun _ _ _ _ _ => rfl)
    ⟨fun hv => ?_, fun c hc => ?_, fun b' hb => ?_⟩ fun _ q hq j hj hused hjq =>
      h.ne hsome hp hj hused hjq (hq.unique hp)
  · rw [hv] at hu
    cases hu
  · rw [hc] at hu
    cases hu
  · obtain rfl := Option.some.inj (hu.symm.trans hb)
    exact ⟨p, sock, hp, hrest⟩

theorem Table.Laid.free (h : t.Laid use) (hn : (use n).ops.isSome) (hp : At t.sockets n p)
    (c : Nat) : Table.Laid { t with mem := Function.update t.mem p none }
      (Function.update use n (.clearing c)) :=
  h.update (fun _ _ _ => Iff.rfl)
    (fun j hj q hused hq => Function.update_of_ne (h.ne hn hp hj hused hq) _ _)
    ⟨fun hv => (by cases hv), fun _ _ => ⟨p, hp⟩, fun b hb => (by cases hb)⟩ fun hu => (by cases hu)

theorem Table.Laid.clear (h : t.Laid use) {c : Nat} (hn : use n = .clearing c) :
    Table.Laid { t with sockets := t.sockets.set n none } (Function.update use n .vacant) := by
  obtain ⟨p, hp⟩ := (h.entry n).pointed c hn
  have hlt := hp.lt
  refine h.update (fun j hj q => (at_clear hlt).trans (and_iff_right hj)) (fun _ _ _ _ _ => rfl)
    ⟨fun _ q hq => ((at_clear hlt).mp hq).1 rfl, fun c hc => (by cases hc),
      fun b hb => (by cases hb)⟩ fun hu => (by cases hu)

end

/-! ## Which call has an entry -/

structure Owned (calls : List Call) (use : Nat → Use) : Prop where
  used : ∀ (c : Nat) (call : Call) (n : Nat) (u : Use), calls[c]? = some call →
    call.use c = some (n, u) → use n = u
  owned : ∀ n c, (use n).caller = some c →
    ∃ call, calls[c]? = some call ∧ call.use c = some (n, use n)

section
variable {calls : List Call} {use : Nat → Use} {c n : Nat} {call call' : Call} {u u' : Use}

theorem Owned.goto (h : Owned calls use) (hcall : calls[c]? = some call)
    (huse : call.use c = some (n, u))
    (hnew : call'.use c = some (n, u') ∨ call'.use c = none ∧ u'.caller = none) :
    Owned (calls.set c call') (Function.update use n u') := by
  have hc : c < calls.length := (List.getElem?_eq_some_iff.mp hcall).1
  have hn : use n = u := h.used c call n u hcall huse
  constructor
  · intro d other m v hd hv
    by_cases hdc : d = c
    · subst hdc
      rw [List.getElem?_set_self hc] at hd
      obtain rfl := Option.some.inj hd
      rcases hnew with hnew | ⟨hnew, -⟩
      · obtain ⟨rfl, rfl⟩ := Prod.mk.inj (Option.some.inj (hnew.symm.trans hv))
        exact Function.update_self _ _ _
      · cases hnew.symm.trans hv
    · rw [List.getElem?_set_ne (Ne.symm hdc)] at hd
      have hm := h.used d other m v hd hv
      have hne : m ≠ n := by
        rintro rfl
        have hcaller := call.caller_of_use huse
        rw [← hn, hm, other.caller_of_use hv] at hcaller
        exact hdc (Option.some.inj hcaller)
      rw [Function.update_of_ne hne]
      exact hm
  · intro m d hd
    by_cases hm : m = n
    · subst hm
      rw [Function.update_self] at hd ⊢
      rcases hnew with hnew | ⟨-, hnew⟩
      · obtain rfl := Option.some.inj ((call'.caller_of_use hnew).symm.trans hd)
        exact ⟨call', List.getElem?_set_self hc, hnew⟩
      · cases hnew.symm.trans hd
    · rw [Function.update_of_ne hm] at hd ⊢
      obtain ⟨other, hother, hv⟩ := h.owned m d hd
      have hdc : d ≠ c := by
        rintro rfl
        obtain rfl := Option.some.inj (hcall.symm.trans hother)
        exact hm (Prod.mk.inj (Option.some.inj (hv.symm.trans huse))).1
      exact ⟨other, (List.getElem?_set_ne (Ne.symm hdc)).trans hother, hv⟩

theorem Owned.begin (h : Owned calls use) (hfree : (use n).caller = none)
    (hnew : call.use calls.length = some (n, u)) :
    Owned (calls ++ [call]) (Function.update use n u) := by
  constructor
  · intro d other m v hd hv
    rw [List.getElem?_append] at hd
    split at hd
    · have hm := h.used d other m v hd hv
      have hne : m ≠ n := by
        rintro rfl
        cases hfree.symm.trans (hm ▸ other.caller_of_use hv)
      rw [Function.update_of_ne hne]
      exact hm
    · rename_i hout
      obtain ⟨hlt, heq⟩ := List.getElem?_eq_some_iff.mp hd
      rw [List.length_singleton] at hlt
      obtain rfl : d = calls.length := by omega
      rw [List.getElem_singleton] at heq
      subst heq
      obtain ⟨rfl, rfl⟩ := Prod.mk.inj (Option.some.inj (hnew.symm.trans hv))
      exact Function.update_self _ _ _
  · intro m d hd
    by_cases hm : m = n
    · subst hm
      rw [Function.update_self] at hd ⊢
      obtain rfl := Option.some.inj ((call.caller_of_use hnew).symm.trans hd)
      exact ⟨call, List.getElem?_concat_length, hnew⟩
    · rw [Function.update_of_ne hm] at hd ⊢
      obtain ⟨other, hother, hv⟩ := h.owned m d hd
      have hlt := (List.getElem?_eq_some_iff.mp hother).1
      exact ⟨other, (List.getElem?_append_left hlt).trans hother, hv⟩

theorem Owned.begin_ended (h : Owned calls use) (result : Int) :
    Owned (calls ++ [.ended result]) use := by
  constructor
  · intro d other m v hd hv
    rw [List.getElem?_append] at hd
    split at hd
    · exact h.used d other m v hd hv
    · obtain ⟨_, heq⟩ := List.getElem?_eq_some_iff.mp hd
      rw [List.getElem_singleton] at heq
      subst heq
      cases hv
  · intro m d hd
    obtain ⟨other, hother, hv⟩ := h.owned m d hd
    have hlt := (List.getElem?_eq_some_iff.mp hother).1
    exact ⟨other, (List.getElem?_append_left hlt).trans hother, hv⟩

end

/-! ## Between two steps -/

structure Inv (s : System) (use : Nat → Use) : Prop where
  intact : s.faulted = false
  laid : s.table.Laid use
  owned : Owned s.calls use
  pointers : ∀ call ∈ s.calls, ∀ n p, call.pointer = some (n, p) → At s.table.sockets n p
  live : ∀ n, n ∈ s.live ↔ (use n).isLive = true
  nodup : s.live.Nodup

section
variable {N : Nat} {s s' : System} {use : Nat → Use} {socket : Int} {n p c : Nat}

theorem Use.ops_of_isLive {u : Use} (h : u.isLive = true) : u.ops = some true := by
  cases u <;> first | rfl | cases h

theorem Inv.live_object (h : Inv s use) (hn : n ∈ s.live) :
    ∃ p sock, At s.table.sockets n p ∧ s.table.mem p = some sock ∧ sock.magic = salSocketMagic ∧
      sock.socket = n ∧ sock.ops.isSome = true :=
  (h.laid.entry n).object true (Use.ops_of_isLive ((h.live n).mp hn))

theorem Inv.keeps (h : Inv s use) : s.Keeps where
  intact := h.intact
  nodup := h.nodup
  held := fun n hn => by
    obtain ⟨p, sock, hp, hsock, -⟩ := h.live_object hn
    exact ⟨p, hp, by rw [hsock]; rfl⟩
  distinct := fun n hn m hm p hnp hmp =>
    h.laid.distinct n m p (by rw [Use.ops_of_isLive ((h.live n).mp hn)]; rfl)
      (by rw [Use.ops_of_isLive ((h.live m).mp hm)]; rfl) hnp hmp

theorem salGetSocket_at {t : Table} {sock : SalSocket} (hp : At t.sockets n p)
    (hsock : t.mem p = some sock) (hmagic : sock.magic = salSocketMagic) :
    t.salGetSocket n = .sock p := by
  unfold Table.salGetSocket
  rw [if_neg (by have := hp.lt; omega), Int.toNat_natCast, hp, Option.join_some]
  dsimp only
  rw [hsock]
  exact if_neg (not_not_intro hmagic)

/-- A number that is asked for is out of range, or it is live. -/
theorem Inv.get_cases (h : Inv s use) (hknown : s.Known socket) :
    (s.table.salGetSocket socket = .null ∧ ¬s.Live socket) ∨
      (s.Live socket ∧ ∃ p, At s.table.sockets socket.toNat p ∧
        s.table.salGetSocket socket = .sock p) := by
  by_cases hlive : s.Live socket
  · obtain ⟨p, sock, hp, hsock, hmagic, -⟩ := h.live_object hlive.2
    refine .inr ⟨hlive, p, hp, ?_⟩
    rw [← Int.toNat_of_nonneg hlive.1]
    exact salGetSocket_at hp hsock hmagic
  · refine .inl ⟨if_pos ?_, hlive⟩
    exact hknown.elim .inl fun h => .inr (h.resolve_right hlive)

theorem Inv.gets (h : Inv s use) (hknown : s.Known socket) : s.Gets socket := by
  unfold System.Gets
  obtain ⟨hnull, hlive⟩ | ⟨hlive, p, hp, hsock⟩ := h.get_cases hknown
  · rw [hnull]
    exact hlive
  · rw [hsock]
    exact ⟨hlive, hp⟩

theorem Inv.object (h : Inv s use) {call : Call} (hcall : s.calls[c]? = some call)
    (hpointer : call.pointer = some (n, p)) : ∃ u, call.use c = some (n, u) ∧ use n = u ∧
      At s.table.sockets n p ∧ ∀ b, u.ops = some b → ∃ sock, s.table.mem p = some sock ∧
        sock.magic = salSocketMagic ∧ sock.socket = n ∧ sock.ops.isSome = b := by
  obtain ⟨u, hu⟩ := call.use_of_pointer hpointer c
  have huse := h.owned.used c call n u hcall hu
  have hp := h.pointers call (List.mem_of_getElem? hcall) n p hpointer
  refine ⟨u, hu, huse, hp, fun b hb => ?_⟩
  obtain ⟨q, sock, hq, hrest⟩ := (h.laid.entry n).object b (huse ▸ hb)
  obtain rfl := hq.unique hp
  exact ⟨sock, hrest⟩

/-! ## The steps -/

/-- An entry that looks free to `socket_alloc`, and that no call has taken, is nobody's. -/
theorem Inv.spare (h : Inv s use) (hp : At s.table.sockets n p)
    (hfree : s.table.isFree (some p) = true) (htaken : ∀ call ∈ s.calls, call.takes ≠ some n) :
    use n = .spare := by
  have hcaller : ∀ c, (use n).caller = some c → ∃ b, (use n).ops = some b ∧ b = true := by
    intro c hc
    obtain ⟨call, hcall, huse⟩ := h.owned.owned n c hc
    have hnot := htaken call (List.mem_of_getElem? hcall)
    cases call <;> rw [Call.use] at huse <;>
      first
      | cases huse
      | (obtain ⟨rfl, hu⟩ := Prod.mk.inj (Option.some.inj huse)
         first
         | exact absurd rfl hnot
         | exact ⟨true, hu ▸ rfl, rfl⟩)
  have hops : (use n).ops ≠ some true := by
    intro hops
    obtain ⟨q, sock, hq, hsock, -, -, hset⟩ := (h.laid.entry n).object true hops
    obtain rfl := hq.unique hp
    unfold Table.isFree at hfree
    dsimp only at hfree
    rw [hsock] at hfree
    cases hsockops : sock.ops with
    | none =>
      rw [hsockops] at hset
      cases hset
    | some ops =>
      rw [Option.all_some, hsockops] at hfree
      cases hfree
  cases huse : use n with
  | spare => rfl
  | vacant => exact absurd hp ((h.laid.entry n).vacant huse p)
  | live => exact absurd (by rw [huse]; rfl) hops
  | made c | ready c | closing c | clearing c =>
    obtain ⟨b, hb, rfl⟩ := hcaller c (by rw [huse]; rfl)
    exact absurd hb hops

theorem Table.Laid.same {t t' : Table} (h : t.Laid use)
    (hat : ∀ i p, At t'.sockets i p ↔ At t.sockets i p) (hmem : t'.mem = t.mem) : t'.Laid use := by
  refine ⟨fun i => ⟨fun hu p hp => (h.entry i).vacant hu p ((hat i p).mp hp),
    fun c hu => ((h.entry i).pointed c hu).imp fun p => (hat i p).mpr, fun b hb => ?_⟩,
    fun i j p hi hj hip hjp => h.distinct i j p hi hj ((hat i p).mp hip) ((hat j p).mp hjp)⟩
  obtain ⟨p, sock, hp, hsock, hrest⟩ := (h.entry i).object b hb
  exact ⟨p, sock, (hat i p).mpr hp, hmem ▸ hsock, hrest⟩

/-- There is no entry, or one that nobody has is taken. -/
theorem Inv.socketNew (h : Inv s use) (grown : Bool) {fresh : Option Nat}
    (hfresh : ∀ p ∈ fresh, s.table.mem p = none)
    (htaken : ∀ call ∈ s.calls,
      call.takes ≠ some (s.table.sockets.findIdx s.table.isFree)) :
    (∃ t, s.table.socketNew N grown fresh = (t, -1) ∧ t.Laid use ∧
      ∀ j q, At s.table.sockets j q → At t.sockets j q) ∨
    ∃ t, ∃ i : Nat, s.table.socketNew N grown fresh = (t, (i : Int)) ∧
      (use i = .spare ∨ use i = .vacant) ∧ (∀ c, t.Laid (Function.update use i (.made c))) ∧
      ∀ j q, At s.table.sockets j q → At t.sockets j q := by
  have hres := allocated_alloc s.table.isFree socketTableStepLen N s.table.sockets grown fresh
  have hindex := alloc_index s.table.isFree socketTableStepLen N s.table.sockets grown fresh
  unfold Table.socketNew Table.socketAlloc
  generalize alloc s.table.isFree socketTableStepLen N s.table.sockets grown fresh = r
    at hres hindex
  cases hres with
  | @full sockets same =>
    have hout : sockets[sockets.length]? = none := List.getElem?_eq_none (Nat.le_refl _)
    refine .inl ⟨{ s.table with sockets }, ?_, h.laid.same same rfl, fun j q => (same j q).mpr⟩
    cases fresh with
    | none =>
      dsimp only
      rw [hout]
      rfl
    | some f =>
      dsimp only
      rw [if_neg fun heq => (by cases hout.symm.trans heq)]
      dsimp only
      rw [hout]
      rfl
  | @reused i p held hfree =>
    have hi : i = s.table.sockets.findIdx s.table.isFree :=
      hindex.resolve_right (Nat.ne_of_lt held.lt)
    have hspare := h.spare held hfree (hi ▸ htaken)
    obtain ⟨q, sock, hq, hsock, hmagic, hsocket, hops⟩ :=
      (h.laid.entry i).object false (by rw [hspare]; rfl)
    obtain rfl := hq.unique held
    refine .inr ⟨s.table.put q { sock with socket := i, magic := salSocketMagic }, i, ?_,
      .inl hspare, fun c => ?_, fun _ _ hj => hj⟩
    · have hkept : ∀ f, fresh = some f → s.table.sockets[i]? ≠ some (some f) := by
        intro f hf heq
        obtain rfl : f = q := At.unique heq held
        cases (hfresh f hf).symm.trans hsock
      have hput : (s.table.mem q).map (fun sock =>
          { sock with socket := i, magic := salSocketMagic }) =
          some { sock with socket := i, magic := salSocketMagic } := by rw [hsock]; rfl
      cases fresh with
      | none =>
        dsimp only
        rw [show s.table.sockets[i]? = some (some q) from held, Option.join_some]
        dsimp only
        rw [hput]
        rfl
      | some f =>
        dsimp only
        rw [if_neg (hkept f rfl)]
        dsimp only
        rw [show s.table.sockets[i]? = some (some q) from held, Option.join_some]
        dsimp only
        rw [hput]
        rfl
    · exact h.laid.put (by rw [hspare]; rfl) held rfl rfl (congrArg some hops.symm)
  | @placed sockets i p hf held vacant =>
    subst hf
    have hvacant : use i = .vacant := by
      cases huse : use i with
      | vacant => rfl
      | clearing c =>
        obtain ⟨q, hq⟩ := (h.laid.entry i).pointed c huse
        exact absurd hq (vacant q)
      | spare | made c | ready c | live | closing c =>
        obtain ⟨q, -, hq, -⟩ := (h.laid.entry i).object _ (by rw [huse]; rfl)
        exact absurd hq (vacant q)
    have hget : sockets[i]? = some (some p) := (held i p).mpr (.inl ⟨rfl, rfl⟩)
    refine .inr ⟨⟨sockets, Function.update s.table.mem p
      (some { socket := i, magic := salSocketMagic })⟩, i, ?_, .inr hvacant, fun c => ?_,
      fun j q hj => (held j q).mpr (.inr hj)⟩
    · dsimp only
      rw [if_pos hget]
      dsimp only
      rw [hget, Option.join_some]
      unfold Table.put
      dsimp only
      rw [Function.update_self, Function.update_idem]
      rfl
    · have hother : ∀ j, (use j).ops.isSome → ∀ q, At s.table.sockets j q → q ≠ p := by
        rintro j hj q hq rfl
        obtain ⟨b, hb⟩ := Option.isSome_iff_exists.mp hj
        obtain ⟨q', sock, hq', hsock, -⟩ := (h.laid.entry j).object b hb
        obtain rfl := hq'.unique hq
        cases (hfresh q' rfl).symm.trans hsock
      refine h.laid.update (fun j hj q => ?_)
        (fun j _ q hused hq => Function.update_of_ne (hother j hused q hq) _ _)
        ⟨fun hu => (by cases hu), fun c hu => (by cases hu), fun b hb => ?_⟩
        fun _ q hq j _ hused hjq => hother j hused q hjq ?_
      · rw [held]
        exact or_iff_right fun heq => hj heq.1
      · obtain rfl := Option.some.inj hb
        exact ⟨p, _, hget, Function.update_self _ _ _, rfl, rfl, rfl⟩
      · exact At.unique hq hget

theorem Use.caller_of_spare {u : Use} (h : u = .spare ∨ u = .vacant) :
    u.caller = none ∧ u.isLive = false := by
  rcases h with rfl | rfl <;> exact ⟨rfl, rfl⟩

/-- What the descriptors are stays the same where one that is not live becomes another such. -/
theorem live_update {live : List Nat} (h : ∀ n, n ∈ live ↔ (use n).isLive = true) {u : Use}
    (hu : u.isLive = (use n).isLive) (m : Nat) :
    m ∈ live ↔ (Function.update use n u m).isLive = true := by
  by_cases hm : m = n
  · subst hm
    rw [Function.update_self, hu]
    exact h m
  · rw [Function.update_of_ne hm]
    exact h m

/-- A call that has begun, and knows no object yet or the one of its entry. -/
theorem mem_begin {call call' : Call} (h : call ∈ s.calls ++ [call']) :
    call ∈ s.calls ∨ call = call' := by
  rcases List.mem_append.mp h with h | h
  · exact .inl h
  · exact .inr (List.mem_singleton.mp h)

/-- A call goes on: the table changes at its entry only, and the other calls keep theirs. -/
theorem Inv.goto (h : Inv s use) {call call' : Call} {u v : Use} {t : Table} {live : List Nat}
    (hcall : s.calls[c]? = some call) (huse : call.use c = some (n, u))
    (hnew : call'.use c = some (n, v) ∨ call'.use c = none ∧ v.caller = none)
    (hlaid : t.Laid (Function.update use n v))
    (hat : ∀ j ≠ n, ∀ q, At s.table.sockets j q → At t.sockets j q)
    (hpointer : ∀ m p, call'.pointer = some (m, p) → At t.sockets m p)
    (hlive : ∀ m, m ∈ live ↔ (Function.update use n v m).isLive = true) (hnodup : live.Nodup) :
    Inv ({ s with table := t, live := live }.goto c call') (Function.update use n v) where
  intact := h.intact
  laid := hlaid
  owned := h.owned.goto hcall huse hnew
  pointers := fun other hother m p hp => by
    obtain ⟨d, hd, rfl⟩ := List.mem_iff_getElem.mp hother
    have hget := List.getElem?_eq_getElem hd
    by_cases hdc : d = c
    · subst hdc
      have hlt : d < s.calls.length := by
        rw [← List.length_set (i := d) (a := call')]
        exact hd
      have heq : (s.calls.set d call')[d]? = some call' := List.getElem?_set_self hlt
      obtain heq' := Option.some.inj (hget.symm.trans heq)
      rw [heq'] at hp
      exact hpointer m p hp
    · have hsame : (s.calls.set c call')[d]? = s.calls[d]? := List.getElem?_set_ne (Ne.symm hdc)
      have hold := hsame.symm.trans hget
      obtain ⟨v, hv⟩ := Call.use_of_pointer hp d
      have hm : use m = v := h.owned.used d _ m v hold hv
      have hne : m ≠ n := by
        rintro rfl
        have hn : use m = u := h.owned.used c call m u hcall huse
        have hcaller := Call.caller_of_use huse
        rw [← hn, hm, Call.caller_of_use hv] at hcaller
        exact hdc (Option.some.inj hcaller)
      exact hat m hne p (h.pointers _ (List.mem_of_getElem? hold) m p hp)
  live := hlive
  nodup := hnodup

/-- A call begins, with an entry that nobody has or none. -/
theorem Inv.begin (h : Inv s use) {call : Call} {u : Use} {t : Table}
    (hfree : (use n).caller = none) (hnew : call.use s.calls.length = some (n, u))
    (hlaid : t.Laid (Function.update use n u))
    (hat : ∀ j q, At s.table.sockets j q → At t.sockets j q)
    (hpointer : ∀ m p, call.pointer = some (m, p) → At t.sockets m p)
    (hlive : u.isLive = (use n).isLive) :
    Inv ({ s with table := t }.begin call) (Function.update use n u) where
  intact := h.intact
  laid := hlaid
  owned := h.owned.begin hfree hnew
  pointers := fun other hother m p hp => by
    rcases mem_begin hother with hother | rfl
    · exact hat m p (h.pointers other hother m p hp)
    · exact hpointer m p hp
  live := live_update h.live hlive
  nodup := h.nodup

theorem Inv.begin_ended (h : Inv s use) (result : Int) {t : Table} (hlaid : t.Laid use)
    (hat : ∀ j q, At s.table.sockets j q → At t.sockets j q) :
    Inv ({ s with table := t }.begin (.ended result)) use where
  intact := h.intact
  laid := hlaid
  owned := h.owned.begin_ended result
  pointers := fun other hother m p hp => by
    rcases mem_begin hother with hother | rfl
    · exact hat m p (h.pointers other hother m p hp)
    · cases hp
  live := h.live
  nodup := h.nodup

theorem Inv.lookup (h : Inv s use) {domain type protocol : Int}
    (hcall : s.calls[c]? = some (.made n domain type protocol)) :
    ∃ use', Inv (s.lookup c n domain type protocol) use' := by
  have huse : use n = .made c := h.owned.used c _ n _ hcall rfl
  obtain ⟨p, sock, hp, hsock, hmagic, -⟩ := (h.laid.entry n).object false (by rw [huse]; rfl)
  unfold System.lookup
  rw [salGetSocket_at hp hsock hmagic]
  refine ⟨_, h.goto hcall rfl (v := .made c) (.inl rfl)
    (h.laid.retag (by rw [huse]; rfl) rfl) (fun _ _ _ hq => hq) (fun m q hq => ?_)
    (live_update h.live (by rw [huse])) h.nodup⟩
  obtain ⟨rfl, rfl⟩ := Prod.mk.inj (Option.some.inj hq)
  exact hp

theorem socketInit_cases (sock : SalSocket) (domain type protocol : Int) {family : Option Created}
    (hfamily : ∀ created ∈ family, created.failsLate = false) :
    ∃ sock' result, sock.socketInit domain type protocol family = (sock', result) ∧
      sock'.magic = sock.magic ∧ sock'.socket = sock.socket ∧
      (result < 0 ∧ sock'.ops = sock.ops ∨ result = 0 ∧ sock'.ops.isSome = true) := by
  unfold SalSocket.socketInit
  split
  · exact ⟨_, _, rfl, rfl, rfl, .inl ⟨by decide, rfl⟩⟩
  split
  · exact ⟨_, _, rfl, rfl, rfl, .inl ⟨by decide, rfl⟩⟩
  match family with
  | none => exact ⟨_, _, rfl, rfl, rfl, .inl ⟨by decide, rfl⟩⟩
  | some (.failed none) => exact ⟨_, _, rfl, rfl, rfl, .inl ⟨by decide, rfl⟩⟩
  | some (.failed (some ops)) => cases hfamily _ rfl
  | some (.created ops) => exact ⟨_, _, rfl, rfl, rfl, .inr ⟨rfl, rfl⟩⟩

theorem Inv.init (h : Inv s use) {domain type protocol : Int} {family : Option Created}
    (hcall : s.calls[c]? = some (.got n p domain type protocol))
    (hfamily : ∀ created ∈ family, created.failsLate = false) :
    (∃ use', Inv (s.init c n p domain type protocol family) use') ∧
      s.GivesBack (s.init c n p domain type protocol family) c := by
  obtain ⟨u, hu, huse, hp, hobject⟩ := h.object hcall rfl
  obtain ⟨-, rfl⟩ := Prod.mk.inj (Option.some.inj hu)
  obtain ⟨sock, hsock, hmagic, hsocket, hops⟩ := hobject false rfl
  obtain ⟨sock', result, hinit, hmagic', hsocket', hres⟩ :=
    socketInit_cases sock domain type protocol hfamily
  have hheld : (use n).ops.isSome := by rw [huse]; rfl
  have hc : c < s.calls.length := (List.getElem?_eq_some_iff.mp hcall).1
  unfold System.init
  rw [hsock]
  dsimp only
  rw [hinit]
  dsimp only
  rcases hres with ⟨hneg, hsame⟩ | ⟨rfl, hset⟩
  · rw [if_pos hneg]
    have hspare : (Use.spare).ops = some sock'.ops.isSome := by rw [hsame, hops]; rfl
    refine ⟨⟨_, h.goto hcall hu (v := .spare) (.inr ⟨rfl, rfl⟩)
      (h.laid.put hheld hp (hmagic'.trans hmagic) (hsocket'.trans hsocket) hspare)
      (fun _ _ _ hq => hq) (fun m q hq => (by cases hq)) (live_update h.live (by rw [huse]; rfl))
      h.nodup⟩, fun call m r hcall' hm _ _ => ?_⟩
    obtain rfl := Option.some.inj (hcall.symm.trans hcall')
    obtain rfl := Option.some.inj hm
    refine ⟨some p, hp, ?_⟩
    unfold Table.isFree System.goto Table.put
    dsimp only
    rw [Function.update_self, Option.all_some, hsame]
    cases hso : sock.ops with
    | none => rfl
    | some ops =>
      rw [hso] at hops
      cases hops
  · rw [if_neg (Int.lt_irrefl 0)]
    have hready : (Use.ready c).ops = some sock'.ops.isSome := by rw [hset]; rfl
    refine ⟨⟨_, h.goto hcall hu (v := .ready c) (.inl rfl)
      (h.laid.put hheld hp (hmagic'.trans hmagic) (hsocket'.trans hsocket) hready)
      (fun _ _ _ hq => hq) (fun m q hq => ?_) (live_update h.live (by rw [huse]; rfl))
      h.nodup⟩, fun call m r _ _ hover _ => ?_⟩
    · obtain ⟨rfl, rfl⟩ := Prod.mk.inj (Option.some.inj hq)
      exact hp
    · have hnow : (s.calls.set c (.ready n p))[c]? = some (.ready n p) := List.getElem?_set_self hc
      cases hnow.symm.trans hover

theorem Inv.protoSocket (h : Inv s use) {result : Int} (hcall : s.calls[c]? = some (.ready n p))
    (hresult : 0 ≤ result) (hops : ((s.table.mem p).bind SalSocket.ops).all (·.socket) = true) :
    (∃ use', Inv (s.protoSocket c p result) use') ∧ s.GivesBack (s.protoSocket c p result) c := by
  obtain ⟨u, hu, huse, hp, hobject⟩ := h.object hcall rfl
  obtain ⟨-, rfl⟩ := Prod.mk.inj (Option.some.inj hu)
  obtain ⟨sock, hsock, hmagic, hsocket, hset⟩ := hobject true rfl
  obtain ⟨ops, hsome⟩ := Option.isSome_iff_exists.mp hset
  have hheld : (use n).ops.isSome := by rw [huse]; rfl
  have hc : c < s.calls.length := (List.getElem?_eq_some_iff.mp hcall).1
  rw [hsock, Option.bind_some, hsome, Option.all_some] at hops
  have hhas : ¬ops.socket = false := by rw [hops]; decide
  unfold System.protoSocket
  rw [hsock]
  dsimp only
  rw [hsome]
  dsimp only
  rw [if_neg hhas, if_pos hresult]
  have hnot : n ∉ s.live := fun hn => by
    have hlive := (h.live n).mp hn
    rw [huse] at hlive
    cases hlive
  have hput : (s.table.put p { sock with ops := some ops, userData := result }).Laid
      (Function.update use n .live) := h.laid.put hheld hp hmagic hsocket rfl
  refine ⟨⟨_, h.goto hcall hu (.inr ⟨rfl, rfl⟩) hput
    (fun _ _ _ hq => hq) (fun m q hq => (by cases hq)) (fun m => ?_) ?_⟩,
    fun call m r _ _ hover hr => ?_⟩
  · rw [hsocket, List.mem_cons]
    by_cases hm : m = n
    · subst hm
      rw [Function.update_self]
      exact iff_of_true (.inl rfl) rfl
    · rw [Function.update_of_ne hm, ← h.live]
      exact or_iff_right hm
  · rw [hsocket]
    exact List.nodup_cons.mpr ⟨hnot, h.nodup⟩
  · have hnow : (s.calls.set c (.ended sock.socket))[c]? = some (.ended sock.socket) :=
      List.getElem?_set_self hc
    obtain heq := Option.some.inj (hnow.symm.trans hover)
    injection heq with heq
    omega

theorem Inv.closesocket (h : Inv s use) (hknown : s.Known socket)
    (halone : ∀ call ∈ s.calls, call.closes ≠ some socket.toNat) :
    ∃ use', Inv (s.closesocket socket) use' := by
  unfold System.closesocket
  obtain ⟨hnull, -⟩ | ⟨hlive, p, hp, hsock⟩ := h.get_cases hknown
  · rw [hnull]
    exact ⟨use, h.begin_ended (-1) h.laid fun _ _ hq => hq⟩
  · rw [hsock]
    -- no other call is closing the descriptor
    have huse : use socket.toNat = .live := by
      have hon := (h.live _).mp hlive.2
      cases huse : use socket.toNat with
      | live => rfl
      | closing d =>
        obtain ⟨call, hcall, hd⟩ := h.owned.owned _ d (by rw [huse]; rfl)
        have hnot := halone call (List.mem_of_getElem? hcall)
        rw [huse] at hd
        cases call <;> cases hd <;> exact absurd rfl hnot
      | vacant | spare | made | ready | clearing =>
        rw [huse] at hon
        cases hon
    refine ⟨_, h.begin (n := socket.toNat) (u := .closing s.calls.length) (by rw [huse]; rfl) rfl
      (h.laid.retag (by rw [huse]; rfl) rfl) (fun _ _ hq => hq) (fun m q hq => ?_)
      (by rw [huse]; rfl)⟩
    obtain ⟨rfl, rfl⟩ := Prod.mk.inj (Option.some.inj hq)
    exact hp

theorem Inv.protoClose (h : Inv s use) (result : Int)
    (hcall : s.calls[c]? = some (.closing n p)) :
    ∃ use', Inv (s.protoClose c n p result) use' := by
  obtain ⟨u, hu, huse, hp, hobject⟩ := h.object hcall rfl
  obtain ⟨-, rfl⟩ := Prod.mk.inj (Option.some.inj hu)
  obtain ⟨sock, hsock, -, -, hset⟩ := hobject true rfl
  obtain ⟨ops, hsome⟩ := Option.isSome_iff_exists.mp hset
  have hover : ∀ r, Inv (s.goto c (.ended r)) (Function.update use n .live) := fun r =>
    h.goto hcall hu (.inr ⟨rfl, rfl⟩) (h.laid.retag (by rw [huse]; rfl) rfl)
      (fun _ _ _ hq => hq) (fun m q hq => by cases hq) (live_update h.live (by rw [huse]; rfl))
      h.nodup
  unfold System.protoClose
  rw [hsock]
  dsimp only
  rw [hsome]
  dsimp only
  split
  · exact ⟨_, hover _⟩
  split
  · refine ⟨_, h.goto hcall hu (v := .closing c) (.inl rfl)
      (h.laid.retag (by rw [huse]; rfl) rfl) (fun _ _ _ hq => hq) (fun m q hq => ?_)
      (live_update h.live (by rw [huse])) h.nodup⟩
    obtain ⟨rfl, rfl⟩ := Prod.mk.inj (Option.some.inj hq)
    exact hp
  · exact ⟨_, hover _⟩

theorem Inv.free (h : Inv s use) (hcall : s.calls[c]? = some (.freeing n p)) :
    ∃ use', Inv (s.free c n p) use' := by
  obtain ⟨u, hu, huse, hp, hobject⟩ := h.object hcall rfl
  obtain ⟨-, rfl⟩ := Prod.mk.inj (Option.some.inj hu)
  obtain ⟨sock, hsock, -⟩ := hobject true rfl
  unfold System.free
  rw [hsock]
  refine ⟨_, h.goto hcall hu (v := .clearing c) (.inl rfl)
    (h.laid.free (by rw [huse]; rfl) hp c) (fun _ _ _ hq => hq) (fun m q hq => (by cases hq))
    (fun m => ?_) (h.nodup.erase n)⟩
  rw [h.nodup.mem_erase_iff, h.live]
  by_cases hm : m = n
  · subst hm
    rw [Function.update_self]
    exact iff_of_false (fun hm => hm.1 rfl) Bool.false_ne_true
  · rw [Function.update_of_ne hm]
    exact and_iff_right hm

theorem Inv.clear (h : Inv s use) (hcall : s.calls[c]? = some (.clearing n)) :
    ∃ use', Inv (s.clear c n) use' := by
  have huse : use n = .clearing c := h.owned.used c _ n _ hcall rfl
  obtain ⟨p, hp⟩ := (h.laid.entry n).pointed c huse
  exact ⟨_, h.goto hcall rfl (v := .vacant) (.inr ⟨rfl, rfl⟩) (h.laid.clear huse)
    (fun j hj q hq => (at_clear hp.lt).mpr ⟨hj, hq⟩) (fun m q hq => (by cases hq))
    (live_update h.live (by rw [huse]; rfl)) h.nodup⟩

/-- What a sound step does. -/
theorem Inv.step (h : Inv s use) {e : Event} (hsound : s.Sound e)
    (hstep : s.step N e = some s') : (∃ use', Inv s' use') ∧ s.Returns s' e := by
  unfold System.step at hstep
  rw [if_neg (by rw [h.intact]; decide)] at hstep
  cases e with
  | socket domain type protocol grown fresh =>
    obtain ⟨hfresh, hstep⟩ := Option.ite_none_right_eq_some.mp hstep
    refine ⟨?_, trivial⟩
    obtain ⟨t, hnew, hlaid, hat⟩ | ⟨t, i, hnew, hspare, hlaid, hat⟩ :=
      h.socketNew (N := N) grown hfresh hsound
    · rw [hnew] at hstep
      obtain rfl := Option.some.inj hstep
      exact ⟨use, h.begin_ended (-1) hlaid hat⟩
    · rw [hnew] at hstep
      obtain rfl := Option.some.inj hstep
      obtain ⟨hcaller, hlive⟩ := Use.caller_of_spare hspare
      refine ⟨_, h.begin hcaller ?_ (hlaid s.calls.length) hat (fun m q hq => ?_) hlive.symm⟩
      · rw [if_neg (by omega)]
        rfl
      · rw [if_neg (by omega)] at hq
        cases hq
  | lookup c =>
    dsimp only at hstep
    split at hstep
    · rename_i hcall
      obtain rfl := Option.some.inj hstep
      exact ⟨h.lookup hcall, trivial⟩
    · cases hstep
  | init c family =>
    dsimp only at hstep
    split at hstep
    · rename_i hcall
      obtain rfl := Option.some.inj hstep
      exact h.init hcall hsound
    · cases hstep
  | protoSocket c result =>
    dsimp only at hstep
    split at hstep
    · rename_i n p hcall
      obtain rfl := Option.some.inj hstep
      exact h.protoSocket hcall hsound.1 (hsound.2 _ hcall _ rfl)
    · cases hstep
  | closesocket socket =>
    obtain rfl := Option.some.inj hstep
    exact ⟨h.closesocket hsound.1 hsound.2, h.gets hsound.1⟩
  | protoClose c result =>
    dsimp only at hstep
    split at hstep
    · rename_i hcall
      obtain rfl := Option.some.inj hstep
      exact ⟨h.protoClose result hcall, trivial⟩
    · cases hstep
  | free c =>
    dsimp only at hstep
    split at hstep
    · rename_i hcall
      obtain rfl := Option.some.inj hstep
      exact ⟨h.free hcall, trivial⟩
    · cases hstep
  | clear c =>
    dsimp only at hstep
    split at hstep
    · rename_i hcall
      obtain rfl := Option.some.inj hstep
      exact ⟨h.clear hcall, trivial⟩
    · cases hstep
  | getSocket socket =>
    obtain rfl := Option.some.inj hstep
    have hgets := h.gets hsound
    refine ⟨⟨use, ?_⟩, hgets⟩
    have hnot : s.table.salGetSocket socket ≠ .fault := fun hfault => by
      unfold System.Gets at hgets
      rw [hfault] at hgets
      exact hgets
    rw [if_neg hnot]
    exact h

theorem Inv.meets (h : Inv s use) {e : Event} (hsound : s.Sound e) : s.Meets N e := by
  intro s' hstep
  obtain ⟨⟨use', hinv⟩, hres⟩ := h.step hsound hstep
  exact ⟨hinv.keeps, hres⟩

theorem Inv.initial (N : Nat) : Inv (System.initial N) fun _ => .vacant where
  intact := rfl
  laid := by
    have hnone : ∀ i p, ¬At (System.initial N).table.sockets i p := fun i p hp => by
      have hget := List.getElem?_replicate.symm.trans hp
      split at hget
      · cases hget
      · cases hget
    exact ⟨fun i => ⟨fun _ => hnone i, fun c hc => (by cases hc), fun b hb => (by cases hb)⟩,
      fun i _ p _ _ hp => absurd hp (hnone i p)⟩
  owned := ⟨fun c call n u hc => (by cases hc), fun n c hc => (by cases hc)⟩
  pointers := fun call hc => by cases hc
  live := fun n => ⟨fun hn => (by cases hn), fun hn => (by cases hn)⟩
  nodup := .nil

end

/-- In a run of sound steps every step does what it is to do, however the calls are interleaved. -/
theorem sockets_sound (salSocketsNum : Nat) (es : List Event)
    (h : Along (System.step salSocketsNum) System.Sound (System.initial salSocketsNum) es) :
    Along (System.step salSocketsNum) (System.Meets salSocketsNum)
      (System.initial salSocketsNum) es :=
  along_of_along (J := fun s => ∃ use, Inv s use)
    (fun _ _ _ ⟨_, hinv⟩ hsound hstep => (hinv.step hsound hstep).1)
    (fun _ _ ⟨_, hinv⟩ hsound => hinv.meets hsound) ⟨_, .initial salSocketsNum⟩ h

instance (s : System) (e : Event) : Decidable (s.Sound e) := by
  cases e <;> unfold System.Sound System.Known System.Live <;> infer_instance

/-- Two calls of `sal_socket`, of which the second begins once the first has its `ops`. -/
theorem sockets_sound_two :
    Along (System.step 16) (System.Meets 16) (System.initial 16)
      [.socket 45 1 0 true (some 7), .lookup 0, .init 0 (some (.created ⟨true, true⟩)),
        .socket 45 1 0 true (some 9), .protoSocket 0 3, .lookup 1, .getSocket 0, .closesocket 0,
        .init 1 none, .protoClose 2 0, .free 2, .getSocket 16, .clear 2] :=
  sockets_sound 16 _ (by decide +kernel)

/-- No socket has been made, and the first entry is null. -/
theorem get_reads_null :
    ¬∀ salSocketsNum es, Along (System.step salSocketsNum) (System.Meets salSocketsNum)
      (System.initial salSocketsNum) es := by
  intro h
  obtain ⟨hmeets, -⟩ := h 16 [.getSocket 0] _ rfl
  obtain ⟨-, hgets⟩ := hmeets _ rfl
  exact hgets

end ControlRTT.Net.SalSockets

import ControlRTT.Components.VbusRing
import ControlRTT.Lib.CInt
import ControlRTT.Lib.CString

/-! # What the VBus takes from the other side

`_bus_in_entry` and `_chn0_actor` of `components/vbus/vbus.c`, with the indices they use and the
bytes of the packet that they read as names and as numbers of channels. Names are read up to their
terminator, and numbers behind it, wherever that is; a number is not always looked at before it is
an index. `packet_inBounds_iff` says for which packets all that is in bounds. What is behind an
array or behind the packet is left open. -/
namespace ControlRTT.Components.VbusInput
open Lib.CInt Lib.CString VbusRing

/-- `RT_VBUS_CHN0_CMD_ENABLE` and what follows. -/
inductive Cmd
  | enable
  | disable
  | set
  | ack
  | nak
  | suspend
  | resume
  deriving DecidableEq, Repr

def Cmd.ofByte (b : UInt8) : Option Cmd :=
  match b.toNat with
  | 0 => some .enable
  | 1 => some .disable
  | 2 => some .set
  | 3 => some .ack
  | 4 => some .nak
  | 5 => some .suspend
  | 6 => some .resume
  | _ => none

/-- `enum _vbus_session_st` -/
inductive SessionSt
  | available
  | listening
  | establishing
  deriving DecidableEq, Repr

/-- A name in memory, without its terminator. -/
structure Name where
  chars : List UInt8
  nul_notMem : 0 ∉ chars

/-- `struct rt_vbus_conn_session`, with the name of its request. -/
structure Session where
  chnr : Int
  st : SessionSt
  name : Option Name

/-- `ARRAY_SIZE(_sess)` -/
def sessNr : Nat := rtVbusChannelNr / 2

/-- `_chn_status` and `_sess`, with what is behind them. -/
structure State where
  chnStatus : Nat → ChnStatus
  sess : Nat → Session

/-- An index into an array, or a byte that is read as part of a name or as a number. -/
inductive Access
  | chnStatus (chnr : Nat)
  | rxIndi (chnr : Nat)
  | busInAction (chnr : Nat)
  | sess (i : Nat)
  | packet (k : Nat)
  deriving DecidableEq, Repr

/-- In its array, or in a packet of this size. -/
def Access.InBounds (size : Nat) : Access → Prop
  | .chnStatus chnr | .rxIndi chnr | .busInAction chnr => chnr < rtVbusChannelNr
  | .sess i => i < sessNr
  | .packet k => k < size

instance (size : Nat) : DecidablePred (Access.InBounds size)
  | .chnStatus chnr | .rxIndi chnr | .busInAction chnr =>
    inferInstanceAs (Decidable (chnr < rtVbusChannelNr))
  | .sess i => inferInstanceAs (Decidable (i < sessNr))
  | .packet k => inferInstanceAs (Decidable (k < size))

/-- What else decides: `rt_malloc`, and what the other threads do before a post is done. -/
structure Env where
  malloc : Nat → Bool
  post : State → List UInt8 → State × Bool

/-- The bytes from `dp + k` on. -/
def reads (k n : Nat) : List Access := (List.range' k n).map .packet

/-- `rt_strcmp(name, dp + off) == 0` -/
def rtStrcmp (dp : List UInt8) : List UInt8 → Nat → Bool × List Access
  | [], off => (dp.getD off 0 = 0, [.packet off])
  | c :: cs, off =>
    if dp.getD off 0 = c then
      let (same, log) := rtStrcmp dp cs (off + 1)
      (same, .packet off :: log)
    else (false, [.packet off])

/-- `rt_strlen(dp + off)` -/
def rtStrlen (dp : List UInt8) (off : Nat) : Nat × List Access :=
  let len := (text 0 (dp.drop off)).length
  (len, reads off (len + 1))

/-- The condition in the loop of `_sess_find`. -/
def sessSame (s : State) (dp : List UInt8) (off : Nat) (st : SessionSt) (i : Nat) :
    Bool × List Access :=
  if (s.sess i).st = st then
    match (s.sess i).name with
    | none => (false, [])
    | some name => rtStrcmp dp name.chars off
  else (false, [])

/-- The loop of `_sess_find`. -/
def sessFindFrom (s : State) (dp : List UInt8) (off : Nat) (st : SessionSt) :
    Nat → Nat → Nat × List Access
  | 0, i => (i, [])
  | n + 1, i =>
    let (same, log) := sessSame s dp off st i
    if same then (i, .sess i :: log)
    else
      let (found, rest) := sessFindFrom s dp off st n (i + 1)
      (found, .sess i :: log ++ rest)

/-- `_sess_find(dp + off, st)` -/
def sessFind (s : State) (dp : List UInt8) (off : Nat) (st : SessionSt) : Nat × List Access :=
  sessFindFrom s dp off st sessNr 0

def State.setStatus (s : State) (chnr : Nat) (st : ChnStatus) : State :=
  { s with chnStatus := Function.update s.chnStatus chnr st }

def State.setSess (s : State) (i : Nat) (session : Session) : State :=
  { s with sess := Function.update s.sess i session }

/-- `_chn0_echo_with` -/
def chn0EchoWith (env : Env) (s : State) (head : UInt8) (dp : List UInt8) (dsize : Nat) :
    State × Bool × List Access :=
  if env.malloc (dsize + 1) then
    let (s, ok) := env.post s (head :: dp.take dsize)
    (s, ok, reads 0 dsize ++ [.chnStatus 0])
  else (s, false, [])

def chn0Nak (env : Env) (s : State) (dp : List UInt8) (dsize : Nat) : State × Bool × List Access :=
  chn0EchoWith env s 4 dp dsize

def chn0Ack (env : Env) (s : State) (dp : List UInt8) (dsize : Nat) : State × Bool × List Access :=
  chn0EchoWith env s 3 dp dsize

/-- The first channel that is available, of those from `chnr` on. -/
def availableFrom (s : State) : Nat → Nat → Nat × List Access
  | 0, chnr => (chnr, [])
  | n + 1, chnr =>
    if s.chnStatus chnr = .available then (chnr, [.chnStatus chnr])
    else
      let (found, log) := availableFrom s n (chnr + 1)
      (found, .chnStatus chnr :: log)

/-! ## The commands -/

def actEnable (env : Env) (s : State) (dp : List UInt8) (dsize : Nat) : State × List Access :=
  let (i, log) := sessFind s dp 1 .listening
  if i = sessNr then
    let (s, _, echo) := chn0Nak env s dp dsize
    (s, log ++ echo)
  else
    let (chnr, search) := availableFrom s rtVbusChannelNr 0
    if chnr = rtVbusChannelNr then
      let (s, _, echo) := chn0Nak env s dp dsize
      (s, log ++ search ++ echo)
    else if env.malloc (dsize + 1) then
      let copied := reads 1 (usub dsize 1)
      let resp := (2 :: (dp.drop 1).take (usub dsize 1)).take dsize ++ [UInt8.ofNat chnr]
      let (s, ok) := env.post s resp
      if ok then
        ((s.setSess i { s.sess i with st := .establishing, chnr }).setStatus chnr .establishing,
          log ++ search ++ copied ++ [.sess i, .chnStatus 0, .sess i, .chnStatus chnr])
      else (s, log ++ search ++ copied ++ [.sess i, .chnStatus 0])
    else (s, log ++ search)

def actSet (env : Env) (s : State) (dp : List UInt8) (dsize : Nat) : State × List Access :=
  let (i, log) := sessFind s dp 1 .establishing
  if i = sessNr then (s, log)
  else
    let (len, name) := rtStrlen dp 1
    let chnr := (dp.getD (1 + len + 1) 0).toNat
    let log := log ++ name ++ [.packet (1 + len + 1)]
    if chnr = 0 ∨ chnr ≥ rtVbusChannelNr then (s, log)
    else if s.chnStatus chnr ≠ .available then
      let (s, _, echo) := chn0Nak env s dp dsize
      (s, log ++ [.chnStatus chnr] ++ echo)
    else
      let (s, ok, echo) := chn0Ack env s dp dsize
      let log := log ++ [.chnStatus chnr, .sess i] ++ echo
      if ok then
        ((s.setSess i { s.sess i with chnr }).setStatus chnr .established,
          log ++ [.sess i, .chnStatus chnr])
      else (s, log)

/-- `RT_VBUS_CHN0_CMD_ACK` of a `SET`. -/
def actAckSet (s : State) (dp : List UInt8) : State × List Access :=
  let (i, log) := sessFind s dp 2 .establishing
  if i = sessNr then (s, log)
  else
    let (len, name) := rtStrlen dp 2
    let chnr := (dp.getD (1 + len + 2) 0).toNat
    ((s.setSess i { s.sess i with chnr }).setStatus chnr .established,
      log ++ name ++ [.packet (1 + len + 2), .sess i, .chnStatus chnr])

/-- `RT_VBUS_CHN0_CMD_ACK` of a `DISABLE`. -/
def actAckDisable (s : State) (dp : List UInt8) : State × List Access :=
  let chnr := (dp.getD 2 0).toNat
  if chnr = 0 ∨ chnr ≥ rtVbusChannelNr then (s, [.packet 2])
  else (s.setStatus chnr .available, [.packet 2, .chnStatus chnr, .rxIndi chnr])

def actDisable (env : Env) (s : State) (dp : List UInt8) (dsize : Nat) : State × List Access :=
  let chnr := (dp.getD 1 0).toNat
  if chnr = 0 ∨ chnr ≥ rtVbusChannelNr then (s, [.packet 1])
  else
    let (s, _, echo) := chn0Ack env (s.setStatus chnr .closing) dp dsize
    (s, [.packet 1, .chnStatus chnr] ++ echo ++ [.rxIndi chnr])

/-- `RT_VBUS_CHN0_CMD_SUSPEND`, and `RT_VBUS_CHN0_CMD_RESUME`. -/
def actFlow (s : State) (dp : List UInt8) (before after : ChnStatus) : State × List Access :=
  let chnr := (dp.getD 1 0).toNat
  if chnr = 0 ∨ chnr ≥ rtVbusChannelNr then (s, [.packet 1])
  else if s.chnStatus chnr ≠ before then (s, [.packet 1, .chnStatus chnr])
  else (s.setStatus chnr after, [.packet 1, .chnStatus chnr, .chnStatus chnr])

def actSuspend (s : State) (dp : List UInt8) : State × List Access :=
  actFlow s dp .established .suspend

def actResume (s : State) (dp : List UInt8) : State × List Access :=
  actFlow s dp .suspend .established

/-- `RT_VBUS_CHN0_CMD_NAK` of an `ENABLE`; the channel is `-RT_EIO`. -/
def actNakEnable (s : State) (dp : List UInt8) : State × List Access :=
  let (i, log) := sessFind s dp 2 .establishing
  if i = sessNr then (s, log)
  else (s.setSess i { s.sess i with chnr := -8 }, log ++ [.sess i])

/-- `_chn0_actor` -/
def chn0Actor (env : Env) (s : State) (dp : List UInt8) (dsize : Nat) : State × List Access :=
  match Cmd.ofByte (dp.getD 0 0) with
  | some .enable => actEnable env s dp dsize
  | some .set => actSet env s dp dsize
  | some .ack =>
    match Cmd.ofByte (dp.getD 1 0) with
    | some .set => actAckSet s dp
    | some .disable => actAckDisable s dp
    | _ => (s, [])
  | some .disable => actDisable env s dp dsize
  | some .suspend => actSuspend s dp
  | some .resume => actResume s dp
  | some .nak =>
    match Cmd.ofByte (dp.getD 1 0) with
    | some .enable => actNakEnable s dp
    | _ => (s, [])
  | none => (s, [])

/-- A packet in the ring. -/
structure Incoming where
  id : UInt8
  data : List UInt8
  length_lt : data.length < 256

/-- `rt_vbus_data_push` and `_vbus_indicate`, behind their assertions; a push may post to channel 0
that there are too many. -/
def dataPush (env : Env) (s : State) (id : UInt8) (high : Bool) : State × List Access :=
  if 0 < id.toNat ∧ id.toNat < rtVbusChannelNr then
    let s := if high then (env.post s [5, id]).1 else s
    (s, .busInAction id.toNat :: (if high then [.chnStatus 0] else []) ++ [.rxIndi id.toNat])
  else (s, [])

/-- What `_bus_in_entry` does with a packet; `beyond` is what the memory has behind it. -/
def busIn (env : Env) (s : State) (p : Incoming) (beyond : List UInt8) (high : Bool) :
    State × List Access :=
  if p.id.toNat > rtVbusChannelNr then (s, [])
  else if !chnConnected s.chnStatus p.id.toNat then (s, [.chnStatus p.id.toNat])
  else
    let (s, log) :=
      if p.id = 0 then
        if p.data.length > 60 then (s, [])
        else chn0Actor env s (p.data ++ beyond) p.data.length
      else if env.malloc (8 + p.data.length) then dataPush env s p.id high
      else (s, [])
    (s, .chnStatus p.id.toNat :: log)

/-! ## Which packets are in bounds -/

def AllIn (size : Nat) (log : List Access) : Prop := ∀ access ∈ log, access.InBounds size

/-- A session in this state asks for this name. -/
def State.Asks (s : State) (st : SessionSt) (name : Name) : Prop :=
  ∃ i < sessNr, (s.sess i).st = st ∧ (s.sess i).name = some name

/-- The bytes are not the beginning of a name that is asked for, with this behind it. -/
def State.Tells (s : State) (st : SessionSt) (behind bytes : List UInt8) : Prop :=
  ∀ name, s.Asks st name → ¬ bytes <+: name.chars ++ behind

/-- Every command tells the name in the packet from those asked for, and has its number in the
packet; the number in the acknowledgement of a `SET` is one of a channel. -/
def State.Accepts (s : State) (data beyond : List UInt8) : Prop :=
  match Cmd.ofByte ((data ++ beyond).getD 0 0) with
  | some .enable => s.Tells .listening [] (data.drop 1)
  | some .set => s.Tells .establishing [0] (data.drop 1)
  | some .ack =>
    match Cmd.ofByte ((data ++ beyond).getD 1 0) with
    | some .set => s.Tells .establishing [0] (data.drop 2) ∧
        ∀ name chnr, s.Asks .establishing name → name.chars ++ [0, chnr] <+: data.drop 2 →
          chnr.toNat < rtVbusChannelNr
    | some .disable => 2 < data.length
    | _ => True
  | some .disable | some .suspend | some .resume => 1 < data.length
  | some .nak =>
    match Cmd.ofByte ((data ++ beyond).getD 1 0) with
    | some .enable => s.Tells .establishing [] (data.drop 2)
    | _ => True
  | none => True

/-- Not the first number behind the channels, and a command that is accepted if there is one. -/
def State.Takes (s : State) (p : Incoming) (beyond : List UInt8) : Prop :=
  p.id.toNat ≠ rtVbusChannelNr ∧
    (p.id = 0 → chnConnected s.chnStatus 0 → p.data.length ≤ 60 → s.Accepts p.data beyond)

section
variable {size : Nat} {a : Access} {log log' : List Access} {s : State} {st : SessionSt}
  {data beyond : List UInt8} {name : Name} {off : Nat}

@[simp] theorem allIn_nil : AllIn size [] := fun _ h => (by cases h)

@[simp] theorem allIn_cons : AllIn size (a :: log) ↔ a.InBounds size ∧ AllIn size log :=
  List.forall_mem_cons

@[simp] theorem allIn_append : AllIn size (log ++ log') ↔ AllIn size log ∧ AllIn size log' :=
  List.forall_mem_append

@[simp] theorem inBounds_sess {i : Nat} : (Access.sess i).InBounds size ↔ i < sessNr := Iff.rfl

@[simp] theorem inBounds_chnStatus {i : Nat} :
    (Access.chnStatus i).InBounds size ↔ i < rtVbusChannelNr := Iff.rfl

@[simp] theorem inBounds_rxIndi {i : Nat} :
    (Access.rxIndi i).InBounds size ↔ i < rtVbusChannelNr := Iff.rfl

@[simp] theorem inBounds_busInAction {i : Nat} :
    (Access.busInAction i).InBounds size ↔ i < rtVbusChannelNr := Iff.rfl

@[simp] theorem inBounds_packet {k : Nat} : (Access.packet k).InBounds size ↔ k < size := Iff.rfl

theorem allIn_reads {k n : Nat} (h : k + n ≤ size) : AllIn size (reads k n) := by
  intro access hmem
  obtain ⟨j, hj, rfl⟩ := List.mem_map.mp hmem
  obtain ⟨i, hi, rfl⟩ := List.mem_range'.mp hj
  rw [inBounds_packet]
  omega

theorem drop_eq_cons (beyond : List UInt8) (hoff : off < data.length) :
    data.drop off = (data ++ beyond).getD off 0 :: data.drop (off + 1) := by
  rw [List.getD_eq_getElem?_getD, List.getElem?_append_left hoff, List.getElem?_eq_getElem hoff,
    List.drop_eq_getElem_cons hoff]
  rfl

theorem rtStrcmp_nil (dp : List UInt8) (off : Nat) :
    rtStrcmp dp [] off = (decide (dp.getD off 0 = 0), [Access.packet off]) := rfl

theorem rtStrcmp_same {dp cs : List UInt8} {c : UInt8} (h : dp.getD off 0 = c) :
    rtStrcmp dp (c :: cs) off =
      ((rtStrcmp dp cs (off + 1)).1, .packet off :: (rtStrcmp dp cs (off + 1)).2) := if_pos h

theorem rtStrcmp_differ {dp cs : List UInt8} {c : UInt8} (h : dp.getD off 0 ≠ c) :
    rtStrcmp dp (c :: cs) off = (false, [.packet off]) := if_neg h

/-- A comparison stays in the packet unless the bytes are the beginning of the name. -/
theorem rtStrcmp_allIn (beyond cs : List UInt8) (off : Nat) :
    AllIn data.length (rtStrcmp (data ++ beyond) cs off).2 ↔ ¬ data.drop off <+: cs := by
  induction cs generalizing off with
  | nil => simp [rtStrcmp_nil]
  | cons c cs ih =>
    by_cases hoff : off < data.length
    · rw [drop_eq_cons beyond hoff, List.cons_prefix_cons]
      by_cases hc : (data ++ beyond).getD off 0 = c
      · subst hc
        rw [rtStrcmp_same rfl, allIn_cons, ih]
        simp [hoff]
      · rw [rtStrcmp_differ hc]
        exact iff_of_true (by simp [hoff]) fun h => hc h.1
    · rw [List.drop_of_length_le (Nat.le_of_not_lt hoff)]
      by_cases hc : (data ++ beyond).getD off 0 = c
      · rw [rtStrcmp_same hc]
        simp [hoff]
      · rw [rtStrcmp_differ hc]
        simp [hoff]

/-- A name that is found in the packet is there with its terminator. -/
theorem rtStrcmp_eq (cs : List UInt8) {off : Nat}
    (h : AllIn data.length (rtStrcmp (data ++ beyond) cs off).2) :
    (rtStrcmp (data ++ beyond) cs off).1 = true ↔ cs ++ [0] <+: data.drop off := by
  induction cs generalizing off with
  | nil =>
    rw [rtStrcmp_nil] at h ⊢
    rw [drop_eq_cons beyond (allIn_cons.mp h).1, List.nil_append, List.cons_prefix_cons]
    simp only [decide_eq_true_eq, List.nil_prefix, and_true]
    exact eq_comm
  | cons c cs ih =>
    by_cases hc : (data ++ beyond).getD off 0 = c
    · subst hc
      rw [rtStrcmp_same rfl] at h ⊢
      obtain ⟨hoff, hrest⟩ := allIn_cons.mp h
      rw [drop_eq_cons beyond hoff, ih hrest, List.cons_append, List.cons_prefix_cons]
      exact (and_iff_right rfl).symm
    · rw [rtStrcmp_differ hc] at h ⊢
      rw [drop_eq_cons beyond (allIn_cons.mp h).1, List.cons_append, List.cons_prefix_cons]
      exact iff_of_false Bool.false_ne_true fun h => hc h.1.symm

/-- A terminator ends a name. -/
theorem nul_prefix {l r cs : List UInt8} (h : l ++ 0 :: r <+: cs ++ [0]) (hcs : 0 ∉ cs) :
    r = [] ∧ l = cs := by
  obtain ⟨t, ht⟩ := h
  rw [List.append_assoc, List.cons_append] at ht
  rcases List.eq_nil_or_concat' (r ++ t) with hnil | ⟨rt, last, hconcat⟩
  · rw [hnil] at ht
    exact ⟨(List.append_eq_nil_iff.mp hnil).1, List.append_cancel_right ht⟩
  · rw [hconcat, ← List.cons_append, ← List.append_assoc] at ht
    obtain ⟨hinit, -⟩ := List.append_inj' ht rfl
    exact absurd (hinit ▸ List.mem_append_right l List.mem_cons_self) hcs

/-- Where one name is found, no other is, and the bytes are the beginning of none. -/
theorem not_prefix_of_found {cs : List UInt8} (hfound : cs ++ [0] <+: data.drop off)
    (name : Name) : ¬ data.drop off <+: name.chars := by
  intro hpre
  obtain ⟨t, ht⟩ := hfound.trans hpre
  refine name.nul_notMem (ht ▸ ?_)
  simp

/-! ## Finding a session -/

/-- The session `i` asks for this name. -/
def State.AsksAt (s : State) (st : SessionSt) (i : Nat) (name : Name) : Prop :=
  (s.sess i).st = st ∧ (s.sess i).name = some name

theorem sessSame_of_asks {dp : List UInt8} {i : Nat} (h : s.AsksAt st i name) :
    sessSame s dp off st i = rtStrcmp dp name.chars off := by
  unfold sessSame
  rw [if_pos h.1, h.2]

theorem sessSame_of_not {dp : List UInt8} {i : Nat} (h : ∀ name, ¬ s.AsksAt st i name) :
    sessSame s dp off st i = (false, []) := by
  unfold sessSame
  split
  · rename_i hst
    split
    · rfl
    · rename_i name hname
      exact absurd ⟨hst, hname⟩ (h name)
  · rfl

theorem AsksAt_unique {i : Nat} {name' : Name} (h : s.AsksAt st i name)
    (h' : s.AsksAt st i name') : name' = name :=
  Option.some.inj (h'.2.symm.trans h.2)

/-- What `_sess_find` reads and finds from the session `i` on. -/
theorem sessFindFrom_spec (s : State) (data beyond : List UInt8) (off : Nat) (st : SessionSt)
    (n i : Nat) (hn : i + n = sessNr) :
    (AllIn data.length (sessFindFrom s (data ++ beyond) off st n i).2 ↔
      ∀ j, i ≤ j → j < sessNr → ∀ name, s.AsksAt st j name → ¬ data.drop off <+: name.chars) ∧
    (AllIn data.length (sessFindFrom s (data ++ beyond) off st n i).2 →
      ((sessFindFrom s (data ++ beyond) off st n i).1 = sessNr ∧
        ∀ j, i ≤ j → j < sessNr → ∀ name, s.AsksAt st j name →
          ¬ name.chars ++ [0] <+: data.drop off) ∨
      ((sessFindFrom s (data ++ beyond) off st n i).1 < sessNr ∧
        ∃ name, s.AsksAt st (sessFindFrom s (data ++ beyond) off st n i).1 name ∧
          name.chars ++ [0] <+: data.drop off)) := by
  induction n generalizing i with
  | zero =>
    have hnone : ∀ j, i ≤ j → ¬ j < sessNr := fun j hj hlt => by omega
    refine ⟨iff_of_true allIn_nil fun j hj hlt => absurd hlt (hnone j hj), fun _ => .inl ⟨hn, ?_⟩⟩
    exact fun j hj hlt => absurd hlt (hnone j hj)
  | succ n ih =>
    obtain ⟨hreads, hfinds⟩ := ih (i + 1) (by omega)
    have hi : i < sessNr := by omega
    -- a name of the session `i`, or one of a later session
    have hsplit : ∀ P : Nat → Prop, (∀ j, i ≤ j → j < sessNr → P j) ↔
        P i ∧ ∀ j, i + 1 ≤ j → j < sessNr → P j := by
      intro P
      refine ⟨fun h => ⟨h i (Nat.le_refl i) hi, fun j hj => h j (by omega)⟩, fun h j hj hlt => ?_⟩
      rcases Nat.eq_or_lt_of_le hj with rfl | hj
      · exact h.1
      · exact h.2 j hj hlt
    unfold sessFindFrom
    dsimp only
    by_cases hasks : ∃ name, s.AsksAt st i name
    · obtain ⟨name, hname⟩ := hasks
      have hat : ∀ P : Name → Prop, (∀ name', s.AsksAt st i name' → P name') ↔ P name :=
        fun P => ⟨fun h => h name hname, fun h name' hname' => AsksAt_unique hname hname' ▸ h⟩
      have hcmp : AllIn data.length _ ↔ _ := rtStrcmp_allIn beyond name.chars off
      rw [sessSame_of_asks hname, hsplit, hsplit, hat, hat]
      split
      · rename_i hsame
        rw [allIn_cons, inBounds_sess, and_iff_right hi, hcmp]
        refine ⟨⟨fun h => ⟨h, ?_⟩, And.left⟩, fun h => .inr ⟨hi, name, hname, ?_⟩⟩
        · exact fun j _ _ name' _ =>
            not_prefix_of_found ((rtStrcmp_eq _ (hcmp.mpr h)).mp hsame) name'
        · exact (rtStrcmp_eq _ (hcmp.mpr h)).mp hsame
      · rename_i hdiff
        rw [List.cons_append, allIn_cons, inBounds_sess, and_iff_right hi, allIn_append, hcmp,
          hreads]
        refine ⟨Iff.rfl, fun ⟨h, hlater⟩ => ?_⟩
        rcases hfinds (hreads.mpr hlater) with ⟨hnr, hnone⟩ | hsome
        · refine .inl ⟨hnr, fun hpre => hdiff ?_, hnone⟩
          exact (rtStrcmp_eq _ (hcmp.mpr h)).mpr hpre
        · exact .inr hsome
    · have hnot := not_exists.mp hasks
      rw [sessSame_of_not hnot, hsplit, hsplit, if_neg Bool.false_ne_true, List.cons_append,
        allIn_cons, inBounds_sess, and_iff_right hi, List.nil_append, hreads]
      refine ⟨(and_iff_right fun name hname => absurd hname (hnot name)).symm, fun h => ?_⟩
      rcases hfinds (hreads.mpr h) with ⟨hnr, hnone⟩ | hsome
      · exact .inl ⟨hnr, fun name hname => absurd hname (hnot name), hnone⟩
      · exact .inr hsome

theorem tells_iff {behind bytes : List UInt8} : s.Tells st behind bytes ↔
    ∀ j, 0 ≤ j → j < sessNr → ∀ name, s.AsksAt st j name → ¬ bytes <+: name.chars ++ behind :=
  ⟨fun h j _ hj name hname => h name ⟨j, hj, hname⟩,
    fun h name ⟨j, hj, hname⟩ => h j (Nat.zero_le j) hj name hname⟩

theorem sessFind_allIn (beyond : List UInt8) :
    AllIn data.length (sessFind s (data ++ beyond) off st).2 ↔ s.Tells st [] (data.drop off) := by
  simp only [tells_iff, List.append_nil]
  exact (sessFindFrom_spec s data beyond off st sessNr 0 (Nat.zero_add _)).1

theorem sessFind_cases
    (h : AllIn data.length (sessFind s (data ++ beyond) off st).2) :
    ((sessFind s (data ++ beyond) off st).1 = sessNr ∧
      ∀ name, s.Asks st name → ¬ name.chars ++ [0] <+: data.drop off) ∨
    ((sessFind s (data ++ beyond) off st).1 < sessNr ∧
      ∃ name, s.Asks st name ∧ name.chars ++ [0] <+: data.drop off) := by
  rcases (sessFindFrom_spec s data beyond off st sessNr 0 (Nat.zero_add _)).2 h with
    ⟨hnr, hnone⟩ | ⟨hlt, name, hname, hfound⟩
  · exact .inl ⟨hnr, fun name ⟨j, hj, hname⟩ => hnone j (Nat.zero_le j) hj name hname⟩
  · exact .inr ⟨hlt, name, ⟨_, hlt, hname⟩, hfound⟩

/-! ## The number behind a name -/

/-- A name that is found is in the packet up to its terminator. -/
theorem length_of_found (hfound : name.chars ++ [0] <+: data.drop off) :
    off + name.chars.length + 1 ≤ data.length := by
  have hle := hfound.length_le
  rw [List.length_append, List.length_drop, List.length_singleton] at hle
  omega

theorem rtStrlen_of_found (hfound : name.chars ++ [0] <+: data.drop off) :
    rtStrlen (data ++ beyond) off =
      (name.chars.length, reads off (name.chars.length + 1)) := by
  have hle := length_of_found hfound
  obtain ⟨t, ht⟩ := hfound
  have htext : text 0 ((data ++ beyond).drop off) = name.chars := by
    rw [List.drop_append_of_le_length (by omega), ← ht, List.append_assoc, List.append_assoc]
    exact text_append_nul name.nul_notMem _
  unfold rtStrlen
  rw [htext]

/-- The bytes from a name that is found, if there are more than its terminator. -/
theorem drop_of_found (beyond : List UInt8) (hfound : name.chars ++ [0] <+: data.drop off)
    (hlt : off + name.chars.length + 1 < data.length) :
    name.chars ++ [0, (data ++ beyond).getD (off + name.chars.length + 1) 0] <+: data.drop off := by
  obtain ⟨t, ht⟩ := hfound
  have hdrop : data.drop (off + (name.chars.length + 1)) = t := by
    rw [← List.drop_drop, ← ht]
    exact List.drop_left' (by simp)
  rw [← Nat.add_assoc, drop_eq_cons beyond hlt] at hdrop
  rw [← ht, ← hdrop]
  exact ⟨data.drop (off + name.chars.length + 1 + 1), by simp⟩

theorem State.Tells.weaken {behind bytes : List UInt8} (h : s.Tells st behind bytes) :
    s.Tells st [] bytes := by
  intro name hname hpre
  rw [List.append_nil] at hpre
  exact h name hname (hpre.trans (List.prefix_append _ _))

/-- Where no name is found, what is not the beginning of a name is not that of a name with its
terminator either. -/
theorem tells_nul_of_none {bytes : List UInt8} (htells : s.Tells st [] bytes)
    (hnone : ∀ name, s.Asks st name → ¬ name.chars ++ [0] <+: bytes) : s.Tells st [0] bytes := by
  intro name hname hpre
  rcases List.prefix_concat_iff.mp hpre with heq | hpre
  · exact hnone name hname (heq ▸ List.prefix_refl _)
  · refine htells name hname ?_
    rwa [List.append_nil]

/-- Where a name is found, there must be more than its terminator. -/
theorem tells_nul_iff_of_found (hname : s.Asks st name)
    (hfound : name.chars ++ [0] <+: data.drop off) :
    s.Tells st [0] (data.drop off) ↔ off + name.chars.length + 1 < data.length := by
  constructor
  · intro htells
    by_contra hge
    refine htells name hname (hfound.eq_of_length_le ?_ ▸ List.prefix_refl _)
    rw [List.length_append, List.length_drop, List.length_singleton]
    omega
  · intro hlt name' hname' hpre
    obtain ⟨hnil, -⟩ := nul_prefix ((drop_of_found [] hfound hlt).trans hpre) name'.nul_notMem
    cases hnil

/-- Only one name is found, and one number behind it. -/
theorem number_unique {bytes : List UInt8} {name' : Name} {c c' : UInt8}
    (h : name.chars ++ [0, c] <+: bytes) (h' : name'.chars ++ [0, c'] <+: bytes) : c' = c := by
  obtain ⟨t, ht⟩ := h
  obtain ⟨t', ht'⟩ := h'
  rw [List.append_assoc] at ht ht'
  have htext := text_append_nul name.nul_notMem (c :: t)
  have htext' := text_append_nul name'.nul_notMem (c' :: t')
  have heq : name.chars = name'.chars := by
    rw [← htext, ← htext']
    exact congrArg (text 0) (ht.trans ht'.symm)
  have hrest := ht'.trans ht.symm
  rw [heq] at hrest
  exact (List.cons.inj (List.cons.inj (List.append_cancel_left hrest)).2).1

/-! ## The commands in bounds -/

@[simp] theorem chn0EchoWith_allIn (env : Env) (s : State) (head : UInt8) (dp : List UInt8)
    (size : Nat) : AllIn size (chn0EchoWith env s head dp size).2.2 := by
  unfold chn0EchoWith
  split
  · simp only [allIn_append, allIn_cons, inBounds_chnStatus, allIn_nil, and_true]
    exact ⟨allIn_reads (Nat.le_of_eq (Nat.zero_add size)), by decide⟩
  · exact allIn_nil

@[simp] theorem chn0Nak_allIn (env : Env) (s : State) (dp : List UInt8) (size : Nat) :
    AllIn size (chn0Nak env s dp size).2.2 := chn0EchoWith_allIn env s 4 dp size

@[simp] theorem chn0Ack_allIn (env : Env) (s : State) (dp : List UInt8) (size : Nat) :
    AllIn size (chn0Ack env s dp size).2.2 := chn0EchoWith_allIn env s 3 dp size

theorem availableFrom_spec (s : State) (n chnr : Nat) (h : chnr + n = rtVbusChannelNr) :
    (availableFrom s n chnr).1 ≤ rtVbusChannelNr ∧ AllIn size (availableFrom s n chnr).2 := by
  induction n generalizing chnr with
  | zero => exact ⟨Nat.le_of_eq h, allIn_nil⟩
  | succ n ih =>
    unfold availableFrom
    obtain ⟨hle, hreads⟩ := ih (chnr + 1) (by omega)
    have hlt : chnr < rtVbusChannelNr := by omega
    split
    · simp [hlt, Nat.le_of_lt hlt]
    · simp [hlt, hle, hreads]

theorem actSet_allIn (env : Env) (s : State) (data beyond : List UInt8) :
    AllIn data.length (actSet env s (data ++ beyond) data.length).2 ↔
      s.Tells .establishing [0] (data.drop 1) := by
  by_cases hlog : AllIn data.length (sessFind s (data ++ beyond) 1 .establishing).2
  · rcases sessFind_cases hlog with ⟨hnr, hnone⟩ | ⟨hlt, name, hname, hfound⟩
    · have htells := tells_nul_of_none ((sessFind_allIn beyond).mp hlog) hnone
      refine iff_of_true ?_ htells
      unfold actSet
      simp only [hnr, ↓reduceIte]
      exact hlog
    · rw [tells_nul_iff_of_found hname hfound]
      have hname := length_of_found hfound
      have hreads : AllIn data.length (reads 1 (name.chars.length + 1)) := allIn_reads (by omega)
      unfold actSet
      simp only [Nat.ne_of_lt hlt, ↓reduceIte, rtStrlen_of_found hfound]
      generalize ((data ++ beyond).getD (1 + name.chars.length + 1) 0).toNat = chnr
      split
      · simp [hlog, hreads]
      · rename_i hchnr
        have hchnr : chnr < rtVbusChannelNr := by omega
        split
        · simp [hlog, hreads, hchnr]
        · split
          · simp [hlog, hreads, hlt, hchnr]
          · simp [hlog, hreads, hlt, hchnr]
  · refine iff_of_false ?_ fun h => hlog ((sessFind_allIn beyond).mpr h.weaken)
    unfold actSet
    dsimp only
    split
    · exact hlog
    · split
      · simp [hlog]
      · split
        · simp [hlog]
        · split <;> simp [hlog]

theorem actEnable_allIn (env : Env) (s : State) {data : List UInt8} (beyond : List UInt8)
    (hdata : data.length < 2 ^ 32) :
    AllIn data.length (actEnable env s (data ++ beyond) data.length).2 ↔
      s.Tells .listening [] (data.drop 1) := by
  rw [← sessFind_allIn beyond]
  by_cases hlog : AllIn data.length (sessFind s (data ++ beyond) 1 .listening).2
  · refine iff_of_true ?_ hlog
    obtain ⟨hle, hsearch⟩ : _ ∧ AllIn data.length _ :=
      availableFrom_spec s rtVbusChannelNr 0 (Nat.zero_add _)
    rcases sessFind_cases hlog with ⟨hnr, hnone⟩ | ⟨hlt, name, -, hfound⟩
    · unfold actEnable
      simp [hnr, hlog]
    · have hone : 1 ≤ data.length := by
        have := length_of_found hfound
        omega
      have hcopied : AllIn data.length (reads 1 (usub data.length 1)) := by
        rw [usub_of_le hone hdata]
        exact allIn_reads (by omega)
      have hzero : 0 < rtVbusChannelNr := by decide
      unfold actEnable
      simp only [Nat.ne_of_lt hlt, ↓reduceIte]
      split
      · simp [hlog, hsearch]
      · rename_i hne
        have hchnr := Nat.lt_of_le_of_ne hle hne
        split
        · split
          · simp [hlog, hsearch, hcopied, hlt, hchnr, hzero]
          · simp [hlog, hsearch, hcopied, hlt, hzero]
        · simp [hlog, hsearch]
  · refine iff_of_false ?_ hlog
    unfold actEnable
    dsimp only
    split
    · simp [hlog]
    · split
      · simp [hlog]
      · split
        · split <;> simp [hlog]
        · simp [hlog]

theorem actAckSet_allIn (s : State) (data beyond : List UInt8) :
    AllIn data.length (actAckSet s (data ++ beyond)).2 ↔
      s.Tells .establishing [0] (data.drop 2) ∧
        ∀ name chnr, s.Asks .establishing name → name.chars ++ [0, chnr] <+: data.drop 2 →
          chnr.toNat < rtVbusChannelNr := by
  by_cases hlog : AllIn data.length (sessFind s (data ++ beyond) 2 .establishing).2
  · rcases sessFind_cases hlog with ⟨hnr, hnone⟩ | ⟨hlt, name, hname, hfound⟩
    · have htells := tells_nul_of_none ((sessFind_allIn beyond).mp hlog) hnone
      refine iff_of_true ?_ ⟨htells, fun name chnr hname hpre => ?_⟩
      · unfold actAckSet
        simp only [hnr, ↓reduceIte]
        exact hlog
      · refine absurd (List.IsPrefix.trans ?_ hpre) (hnone name hname)
        exact ⟨[chnr], by simp⟩
    · rw [tells_nul_iff_of_found hname hfound]
      have hle := length_of_found hfound
      have hreads : AllIn data.length (reads 2 (name.chars.length + 1)) := allIn_reads (by omega)
      have hpos : 1 + name.chars.length + 2 = 2 + name.chars.length + 1 := by omega
      unfold actAckSet
      simp only [Nat.ne_of_lt hlt, ↓reduceIte, rtStrlen_of_found hfound, hpos, allIn_append,
        allIn_cons, inBounds_packet, inBounds_sess, inBounds_chnStatus, allIn_nil, and_true, hlog,
        hreads, hlt, true_and]
      refine and_congr_right fun hnumber => ?_
      have hdrop := drop_of_found beyond hfound hnumber
      refine ⟨fun h name' chnr hname' hpre => ?_, fun h => h name _ hname hdrop⟩
      rwa [number_unique hdrop hpre]
  · refine iff_of_false ?_ fun h => hlog ((sessFind_allIn beyond).mpr h.1.weaken)
    unfold actAckSet
    dsimp only
    split
    · exact hlog
    · simp [hlog]

theorem actNakEnable_allIn (s : State) (data beyond : List UInt8) :
    AllIn data.length (actNakEnable s (data ++ beyond)).2 ↔
      s.Tells .establishing [] (data.drop 2) := by
  rw [← sessFind_allIn beyond]
  unfold actNakEnable
  dsimp only
  split
  · exact Iff.rfl
  · rename_i hne
    rw [allIn_append]
    refine and_iff_left_of_imp fun hlog => ?_
    rcases sessFind_cases hlog with ⟨hnr, -⟩ | ⟨hlt, -⟩
    · exact absurd hnr hne
    · simp [hlt]

theorem actAckDisable_allIn (s : State) (dp : List UInt8) :
    AllIn size (actAckDisable s dp).2 ↔ 2 < size := by
  unfold actAckDisable
  dsimp only
  split
  · simp
  · rename_i hchnr
    have hlt : (dp.getD 2 0).toNat < rtVbusChannelNr := by omega
    simp only [allIn_cons, inBounds_packet, inBounds_chnStatus, inBounds_rxIndi, hlt, allIn_nil,
      and_true]

theorem actDisable_allIn (env : Env) (s : State) (dp : List UInt8) :
    AllIn size (actDisable env s dp size).2 ↔ 1 < size := by
  unfold actDisable
  dsimp only
  split
  · simp
  · rename_i hchnr
    have hlt : (dp.getD 1 0).toNat < rtVbusChannelNr := by omega
    simp only [allIn_append, allIn_cons, inBounds_packet, inBounds_chnStatus, inBounds_rxIndi, hlt,
      chn0Ack_allIn, allIn_nil, and_true]

theorem actFlow_allIn (s : State) (dp : List UInt8) (before after : ChnStatus) :
    AllIn size (actFlow s dp before after).2 ↔ 1 < size := by
  unfold actFlow
  dsimp only
  split
  · simp
  · rename_i hchnr
    have hlt : (dp.getD 1 0).toNat < rtVbusChannelNr := by omega
    split
    all_goals
      simp only [allIn_cons, inBounds_packet, inBounds_chnStatus, hlt, allIn_nil, and_true]

end

/-- A command stays in bounds exactly if it is accepted. -/
theorem chn0Actor_allIn (env : Env) (s : State) {data : List UInt8} (beyond : List UInt8)
    (hdata : data.length < 2 ^ 32) :
    AllIn data.length (chn0Actor env s (data ++ beyond) data.length).2 ↔
      s.Accepts data beyond := by
  unfold chn0Actor State.Accepts
  split
  · exact actEnable_allIn env s beyond hdata
  · exact actSet_allIn env s data beyond
  · split
    · exact actAckSet_allIn s data beyond
    · exact actAckDisable_allIn s _
    · exact iff_of_true allIn_nil trivial
  · exact actDisable_allIn env s _
  · exact actFlow_allIn s _ _ _
  · exact actFlow_allIn s _ _ _
  · split
    · exact actNakEnable_allIn s data beyond
    · exact iff_of_true allIn_nil trivial
  · exact iff_of_true allIn_nil trivial

theorem dataPush_allIn (env : Env) (s : State) (id : UInt8) (high : Bool) (size : Nat) :
    AllIn size (dataPush env s id high).2 := by
  have hzero : 0 < rtVbusChannelNr := by decide
  unfold dataPush
  split
  · rename_i hid
    cases high
    · simp [hid.2]
    · simp [hid.2, hzero]
  · exact allIn_nil

/-- All that `_bus_in_entry` and `_chn0_actor` do with a packet is in bounds exactly if its channel
is not the first that there is not, and its command, if it has one, is accepted. -/
theorem packet_inBounds_iff (env : Env) (s : State) (p : Incoming) (beyond : List UInt8)
    (high : Bool) :
    (∀ access ∈ (busIn env s p beyond high).2, access.InBounds p.data.length) ↔
      s.Takes p beyond := by
  change AllIn p.data.length (busIn env s p beyond high).2 ↔ _
  have hdata : p.data.length < 2 ^ 32 := Nat.lt_trans p.length_lt (by decide)
  have hzero : rtVbusChannelNr ≠ 0 := by decide
  unfold busIn State.Takes
  split
  · rename_i hgt
    refine iff_of_true allIn_nil ⟨Nat.ne_of_gt hgt, fun hid => ?_⟩
    rw [hid] at hgt
    cases hgt
  · rename_i hle
    have hlt : p.id.toNat < rtVbusChannelNr ↔ p.id.toNat ≠ rtVbusChannelNr := by omega
    split
    · rename_i hclosed
      simp only [allIn_cons, inBounds_chnStatus, allIn_nil, and_true, hlt]
      refine (and_iff_left fun hid hconnected => ?_).symm
      simp [hid, hconnected] at hclosed
    · rename_i hconnected
      dsimp only
      rw [allIn_cons, inBounds_chnStatus, hlt]
      refine and_congr_right fun _ => ?_
      by_cases hid : p.id = 0
      · have hconnected : chnConnected s.chnStatus 0 = true := by simpa [hid] using hconnected
        simp only [hid, ↓reduceIte, hconnected, true_implies]
        split
        · rename_i hbig
          exact iff_of_true allIn_nil fun hsmall => absurd hbig (Nat.not_lt.mpr hsmall)
        · rename_i hsmall
          rw [chn0Actor_allIn env s beyond hdata]
          exact ⟨fun h _ => h, fun h => h (Nat.le_of_not_lt hsmall)⟩
      · simp only [hid, ↓reduceIte, false_implies, iff_true]
        split
        · exact dataPush_allIn env s p.id high _
        · exact allIn_nil

/-- A packet of channel 32, and the acknowledgement of a `SET` with channel 200. -/
theorem chnStatus_past_end :
    (¬ ∀ access ∈ (busIn ⟨fun _ => true, fun s _ => (s, true)⟩
        ⟨fun _ => .established, fun _ => ⟨0, .available, none⟩⟩ ⟨32, [], by decide⟩ [] false).2,
      access.InBounds 0) ∧
    ¬ ∀ access ∈ (busIn ⟨fun _ => true, fun s _ => (s, true)⟩
        ⟨fun _ => .established, fun _ => ⟨0, .establishing, some ⟨[97], by decide⟩⟩⟩
        ⟨0, [3, 2, 97, 0, 200], by decide⟩ [] false).2, access.InBounds 5 := by
  refine ⟨fun h => ?_, fun h => ?_⟩
  · exact absurd (h (.chnStatus 32) (by decide)) (by decide)
  · exact absurd (h (.chnStatus 200) (by decide)) (by decide)

end ControlRTT.Components.VbusInput

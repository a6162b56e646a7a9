import ControlRTT.Components.Ymodem
import ControlRTT.Kernel.Device

/-! # A session on a device (ymodem.c)

`rym_recv_on_device` takes the receive indication of a device for the time of a transfer. All its
exits free the buffer of the context, also the one before there is such a buffer
(`cleans_up_iff`). -/
namespace ControlRTT.Components.YmodemSession
open ControlRTT.Lib.CInt ControlRTT.Kernel.Device ControlRTT.Components.Ymodem

/-- `_RYM_STX_PKG_SZ` -/
def rymStxPkgSz : Nat := 1 + 2 + 1024 + 2

def rtDeviceFlagStream : BitVec 16 := 0x040

/-- What `rym_recv_on_device` itself uses of `struct rym_ctx`; the transfer is a `Rym`. A pointer
is the address of a block or null. -/
structure RymCtx where
  stage : RymStage
  buf : Option Nat
  deriving DecidableEq, Repr

/-- The rest of a device: whom it tells of data, and what its driver keeps. -/
structure Attached (τ : Type) where
  rxIndicate : Nat
  driver : τ
  deriving DecidableEq, Repr

/-- What the call returns, if not `RT_EOK`. -/
inductive SessionErr where
  | device (result : Result)
  | enomem
  | rym (err : RymErr)
  deriving DecidableEq, Repr

/-- The context, the device and the global pointer; the blocks that the call has got from the heap
and those that it has freed, and how often it has closed the device. -/
structure Session (τ : Type) where
  ctx : RymCtx
  dev : RtDevice × Attached τ
  theCtx : Option Nat
  allocated : List Nat := []
  freed : List Nat := []
  closes : Nat := 0

/-- What surrounds a call: the heap, the driver, the callbacks, what the line brings to each read,
and what the reads and writes make of the device. -/
structure Host (τ : Type) where
  malloc : Nat → Option Nat
  ops : RtDeviceOps (Attached τ)
  callbacks : Callbacks
  line : List (Option Byte)
  transferred : RtDevice × Attached τ → RtDevice × Attached τ
  rymRxInd : Nat

section
variable {τ : Type} (host : Host τ)

/-- Here and below there is no result while the transfer goes on, or if an assertion fails. -/
def rymDoRecv (s : Session τ) (handshakeTimeout : Nat) : Option (Session τ × Option SessionErr) :=
  match host.malloc rymStxPkgSz with
  | none => some ({ s with ctx := { stage := .none, buf := none } }, some .enomem)
  | some buf =>
    let rym := (Rym.start handshakeTimeout).feed host.callbacks handshakeTimeout host.line
    match rym.phase with
    | .ended err => some ({ s with
        ctx := { stage := rym.stage, buf := some buf }
        dev := host.transferred s.dev
        allocated := s.allocated ++ [buf] }, err.map .rym)
    | _ => none

/-- The device, when it is opened. -/
def detached (dev : RtDevice × Attached τ) : RtDevice × Attached τ :=
  ({ dev.1 with flag := dev.1.flag &&& ~~~rtDeviceFlagStream },
    { dev.2 with rxIndicate := host.rymRxInd })

/-- What follows `__exit`; to free no block does nothing. -/
def Session.exit (s : Session τ) (odevFlag : BitVec 16) (odevRxInd : Nat) : Session τ :=
  { s with
    dev := ({ s.dev.1 with flag := odevFlag }, { s.dev.2 with rxIndicate := odevRxInd })
    freed := s.freed ++ s.ctx.buf.toList
    theCtx := none }

def rymRecvOnDevice (theCtx : Option Nat) (this : Nat) (ctx : RymCtx)
    (dev : RtDevice × Attached τ) (oflag : BitVec 16) (handshakeTimeout : Nat) :
    Option (Session τ × Option SessionErr) :=
  if theCtx = none then
    (rtDeviceOpen host.ops (detached host dev) oflag).bind fun (opened, res) =>
      let s : Session τ := { ctx := ctx, dev := opened, theCtx := some this }
      if res ≠ .eok then some (s.exit dev.1.flag dev.2.rxIndicate, some (.device res))
      else (rymDoRecv host s handshakeTimeout).bind fun (s, res) =>
        (rtDeviceClose host.ops s.dev).map fun (closed, _) =>
          (({ s with dev := closed, closes := s.closes + 1 }).exit dev.1.flag dev.2.rxIndicate, res)
  else none

/-- `rt_device_open` counts an open: it does so after a driver that has no such function, too. -/
def Opens (ops : RtDeviceOps (Attached τ)) (dev : RtDevice × Attached τ) (oflag : BitVec 16) :
    Prop :=
  ∃ dev₁ dev₂ result, activate ops dev = some (dev₁, .eok) ∧ ¬Busy dev₁.1 ∧
    callOpen ops dev₁ oflag = some (dev₂, result) ∧ (result = .eok ∨ result = .enosys)

/-- The device is as it has been, the session is over, and what the call has opened and got is
closed and freed, once each, and nothing else. -/
structure CleansUp (dev : RtDevice × Attached τ) (oflag : BitVec 16) (s : Session τ) : Prop where
  flag : s.dev.1.flag = dev.1.flag
  rxIndicate : s.dev.2.rxIndicate = dev.2.rxIndicate
  theCtx : s.theCtx = none
  closed : Opens host.ops (detached host dev) oflag → s.closes = 1
  not_closed : ¬Opens host.ops (detached host dev) oflag → s.closes = 0
  freed : s.freed = s.allocated

end

section
variable {τ : Type} {host : Host τ} {s s' : Session τ} {ctx : RymCtx}
  {dev dev' : RtDevice × Attached τ} {oflag : BitVec 16} {theCtx : Option Nat}
  {this handshakeTimeout : Nat} {res : Option SessionErr}

/-- The buffer of the context is the one block that has been got, or null without one. -/
theorem doRecv_cases (h : rymDoRecv host s handshakeTimeout = some (s', res)) :
    s'.closes = s.closes ∧ s'.freed = s.freed ∧
      s'.allocated = s.allocated ++ s'.ctx.buf.toList := by
  unfold rymDoRecv at h
  split at h
  · obtain ⟨rfl, -⟩ := Prod.mk.inj (Option.some.inj h)
    exact ⟨rfl, rfl, (List.append_nil _).symm⟩
  · dsimp only at h
    split at h
    · obtain ⟨rfl, -⟩ := Prod.mk.inj (Option.some.inj h)
      exact ⟨rfl, rfl, rfl⟩
    · cases h

/-- An open that succeeds is counted. -/
theorem opens_of_eok {ops : RtDeviceOps (Attached τ)}
    (h : rtDeviceOpen ops dev oflag = some (dev', .eok)) : Opens ops dev oflag := by
  obtain ⟨⟨dev₁, result₁⟩, hact, h⟩ := Option.bind_eq_some_iff.mp h
  dsimp only at h
  by_cases heok : result₁ = .eok
  · subst heok
    rw [if_neg (not_not.mpr rfl)] at h
    split at h
    · cases h
    · rename_i hidle
      obtain ⟨⟨dev₂, result₂⟩, hcall, hcount⟩ := Option.bind_eq_some_iff.mp h
      refine ⟨dev₁, dev₂, result₂, hact, hidle, hcall, ?_⟩
      dsimp only at hcount
      unfold countOpen at hcount
      split at hcount
      · rename_i hcounted
        exact hcounted
      · exact .inl (Prod.mk.inj (Option.some.inj hcount)).2
  · rw [if_pos heok] at h
    exact absurd (Prod.mk.inj (Option.some.inj h)).2 heok

/-- The call has transferred and closed, or it has failed to open and freed what the context had. -/
theorem recvOnDevice_cases
    (h : rymRecvOnDevice host theCtx this ctx dev oflag handshakeTimeout = some (s, res)) :
    s.dev.1.flag = dev.1.flag ∧ s.dev.2.rxIndicate = dev.2.rxIndicate ∧ s.theCtx = none ∧
    (((∃ opened, rtDeviceOpen host.ops (detached host dev) oflag = some (opened, .eok)) ∧
        s.closes = 1 ∧ s.freed = s.allocated) ∨
      ((¬∃ opened, rtDeviceOpen host.ops (detached host dev) oflag = some (opened, .eok)) ∧
        s.closes = 0 ∧ s.allocated = [] ∧ s.freed = ctx.buf.toList)) := by
  unfold rymRecvOnDevice at h
  split at h
  · obtain ⟨⟨opened, result⟩, hopen, h⟩ := Option.bind_eq_some_iff.mp h
    dsimp only at h
    by_cases heok : result = .eok
    · subst heok
      rw [if_neg (not_not.mpr rfl)] at h
      obtain ⟨⟨s₁, res₁⟩, hrecv, h⟩ := Option.bind_eq_some_iff.mp h
      obtain ⟨⟨closed, _⟩, -, heq⟩ := Option.map_eq_some_iff.mp h
      obtain ⟨rfl, rfl⟩ := Prod.mk.inj heq
      obtain ⟨hcloses, hfreed, hallocated⟩ := doRecv_cases hrecv
      refine ⟨rfl, rfl, rfl, .inl ⟨⟨opened, hopen⟩, congrArg (· + 1) hcloses, ?_⟩⟩
      change s₁.freed ++ s₁.ctx.buf.toList = s₁.allocated
      rw [hfreed, hallocated]
    · rw [if_pos heok] at h
      obtain ⟨rfl, rfl⟩ := Prod.mk.inj (Option.some.inj h)
      refine ⟨rfl, rfl, rfl, .inr ⟨?_, rfl, rfl, rfl⟩⟩
      rintro ⟨opened', hopen'⟩
      rw [hopen] at hopen'
      exact heok (Prod.mk.inj (Option.some.inj hopen')).2
  · cases h

/-- The call cleans up exactly if it has opened the device, or could not do so with a context that
had no buffer. -/
theorem cleans_up_iff
    (h : rymRecvOnDevice host theCtx this ctx dev oflag handshakeTimeout = some (s, res)) :
    CleansUp host dev oflag s ↔
      (∃ opened, rtDeviceOpen host.ops (detached host dev) oflag = some (opened, .eok)) ∨
        (¬Opens host.ops (detached host dev) oflag ∧ ctx.buf = none) := by
  obtain ⟨hflag, hind, hthe, hcase⟩ := recvOnDevice_cases h
  rcases hcase with ⟨⟨opened, hopen⟩, hcloses, hfreed⟩ | ⟨hfails, hcloses, hallocated, hfreed⟩
  · have hopens := opens_of_eok hopen
    exact iff_of_true ⟨hflag, hind, hthe, fun _ => hcloses, fun hnot => absurd hopens hnot, hfreed⟩
      (.inl ⟨opened, hopen⟩)
  · have hnull : ctx.buf.toList = [] ↔ ctx.buf = none := by
      cases ctx.buf with
      | none => exact iff_of_true rfl rfl
      | some buf => exact iff_of_false (List.cons_ne_nil _ _) (Option.some_ne_none _)
    constructor
    · intro hclean
      refine .inr ⟨fun hopens => ?_, hnull.mp ?_⟩
      · have hone := hclean.closed hopens
        rw [hcloses] at hone
        cases hone
      · rw [← hfreed, hclean.freed, hallocated]
    · rintro (hopened | ⟨hnot, hbuf⟩)
      · exact absurd hopened hfails
      · exact ⟨hflag, hind, hthe, fun hopens => absurd hopens hnot, fun _ => hcloses,
          by rw [hfreed, hallocated]; exact hnull.mpr hbuf⟩

/-! ## Silence ends a transfer -/

/-- While nothing comes the handshake goes on for the rounds that are left, and all else ends. -/
theorem feed_silence {cb : Callbacks} {tmSec : Nat} (rym : Rym) :
    ∃ n err, (rym.feed cb tmSec (List.replicate n none)).phase = .ended err := by
  have hone : ∀ rym : Rym, (∀ i, rym.phase ≠ .handshake i) →
      ∃ n err, (rym.feed cb tmSec (List.replicate n none)).phase = .ended err := by
    intro rym hphase
    refine ⟨1, ?_⟩
    change ∃ err, (rym.receive cb tmSec none).phase = .ended err
    unfold Rym.receive
    cases hp : rym.phase with
    | handshake i => exact absurd hp (hphase i)
    | transCode => exact ⟨_, rfl⟩
    | finEot => exact ⟨_, rfl⟩
    | finSoh => exact ⟨_, rfl⟩
    | data r len buf => exact ⟨_, rfl⟩
    | ended err => exact ⟨err, hp⟩
  have hrounds : ∀ (left : Nat) (rym : Rym) (i : Nat), rym.phase = .handshake i → tmSec - i ≤ left →
      ∃ n err, (rym.feed cb tmSec (List.replicate n none)).phase = .ended err := by
    intro left
    induction left with
    | zero =>
      intro rym i hp hleft
      refine ⟨1, some .tmo, ?_⟩
      change (rym.receive cb tmSec none).phase = .ended (some .tmo)
      unfold Rym.receive
      rw [hp]
      change (rym.handshakeCode tmSec i codeNone).phase = .ended (some .tmo)
      unfold Rym.handshakeCode
      rw [if_neg (by decide), if_neg (by decide), if_neg (by omega)]
      rfl
    | succ left ih =>
      intro rym i hp hleft
      have hnext : rym.receive cb tmSec none = rym.handshakeCode tmSec i codeNone := by
        unfold Rym.receive
        rw [hp]
        rfl
      unfold Rym.handshakeCode at hnext
      rw [if_neg (by decide), if_neg (by decide)] at hnext
      by_cases hmore : i + 1 < tmSec
      · rw [if_pos hmore] at hnext
        obtain ⟨n, err, hend⟩ := ih (rym.receive cb tmSec none) (i + 1) (by rw [hnext]; rfl)
          (by omega)
        exact ⟨n + 1, err, hend⟩
      · rw [if_neg hmore] at hnext
        exact ⟨1, some .tmo, congrArg Rym.phase hnext⟩
  by_cases hphase : ∃ i, rym.phase = .handshake i
  · obtain ⟨i, hp⟩ := hphase
    exact hrounds _ rym i hp le_rfl
  · exact hone rym fun i hp => hphase ⟨i, hp⟩

/-- Whatever has come, the transfer ends if nothing more comes. -/
theorem doRecv_returns (s : Session τ) (handshakeTimeout : Nat) :
    ∃ n r, rymDoRecv { host with line := host.line ++ List.replicate n none } s handshakeTimeout =
      some r := by
  obtain ⟨n, err, hend⟩ := @feed_silence host.callbacks handshakeTimeout
    ((Rym.start handshakeTimeout).feed host.callbacks handshakeTimeout host.line)
  refine ⟨n, ?_⟩
  unfold rymDoRecv
  dsimp only
  split
  · exact ⟨_, rfl⟩
  · have hfeed : ((Rym.start handshakeTimeout).feed host.callbacks handshakeTimeout
        (host.line ++ List.replicate n none)).phase = .ended err := by
      unfold Rym.feed at hend ⊢
      rw [List.foldl_append]
      exact hend
    rw [hfeed]
    exact ⟨_, rfl⟩

/-! ## Failures -/

/-- A driver that opens with a result, and what comes from the line then. -/
def opensWith (result : Result) (line : List (Option Byte)) : Host Unit where
  malloc := fun _ => some 0x20001000
  ops := { deviceOpen := some fun d _ => some (d, result) }
  callbacks := ⟨none, none⟩
  line := line
  transferred := id
  rymRxInd := 0x08001000

/-- A device with an indication of its own. -/
def idle : RtDevice × Attached Unit := (⟨0x150, 0, 0⟩, ⟨0x08002000, ()⟩)

/-- A context that has been used before still has the buffer that was freed then: if the device
does not open it is freed again. -/
theorem freed_again :
    ∃ s res, rymRecvOnDevice (opensWith .eio []) none 0x20000000 ⟨.finished, some 0x20001000⟩ idle
        0 10 = some (s, res) ∧
      s.allocated = [] ∧ s.freed = [0x20001000] ∧ ¬CleansUp (opensWith .eio []) idle 0 s := by
  refine ⟨_, _, rfl, rfl, rfl, fun h => ?_⟩
  exact List.cons_ne_nil _ _ h.freed

/-- Nothing comes from the line for ten rounds. -/
theorem cleans_up_after_timeout :
    ∃ s, rymRecvOnDevice (opensWith .eok (List.replicate 10 none)) none 0x20000000
        ⟨.finished, some 0x20001000⟩ idle 0 10 = some (s, some (.rym .tmo)) ∧
      CleansUp (opensWith .eok (List.replicate 10 none)) idle 0 s := by
  have hrun : ∃ s, rymRecvOnDevice (opensWith .eok (List.replicate 10 none)) none 0x20000000
      ⟨.finished, some 0x20001000⟩ idle 0 10 = some (s, some (.rym .tmo)) := ⟨_, rfl⟩
  obtain ⟨s, hrun⟩ := hrun
  exact ⟨s, hrun, (cleans_up_iff hrun).mpr (.inl ⟨_, rfl⟩)⟩

end

end ControlRTT.Components.YmodemSession

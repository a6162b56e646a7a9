import ControlRTT.Kernel.Device
import ControlRTT.Drivers.Pipe

/-! # Pipes as devices (pipe.c, device.c)

`rt_device_close` counts down before it calls the driver, and `rt_pipe_close` destroys the buffer
when it finds a count of one: it never does. The buffer outlives the last close, with what it
holds (`lifetime_along_iff`). -/
namespace ControlRTT.Drivers.PipeDevice
open ControlRTT.Lib.CInt ControlRTT.Lib.Runs ControlRTT.Kernel.Device
open ControlRTT.Drivers.RingBuffer
open ControlRTT.Drivers.Pipe (rtRingbufferCreate create_spec)

/-- What a pipe has besides its device, and the number of buffers that have been made for it and
not been freed. -/
structure RtPipe where
  bufsz : Nat
  fifo : Option RtRingbuffer := none
  buffers : Nat := 0

abbrev Pipe := RtDevice × RtPipe

def rtPipeOpen (pool : Nat → Byte) (memory : Bool) (pipe : Pipe) :
    Option (Pipe × Result) :=
  match pipe.2.fifo with
  | some _ => some (pipe, .eok)
  | none => (rtRingbufferCreate pool pipe.2.bufsz memory).map fun fifo =>
    ((pipe.1, { pipe.2 with
      fifo := fifo
      buffers := if fifo.isSome then pipe.2.buffers + 1 else pipe.2.buffers }), .eok)

/-- `rt_ringbuffer_destroy` asserts that there is a buffer. -/
def rtPipeClose (pipe : Pipe) : Option (Pipe × Result) :=
  if pipe.1.refCount = 1 then
    pipe.2.fifo.map fun _ =>
      ((pipe.1, { pipe.2 with fifo := none, buffers := pipe.2.buffers - 1 }), .eok)
  else some (pipe, .eok)

/-- The loop of `rt_pipe_read`; `count` is what is left to read, and bounds its turns. -/
def getAll (rb : RtRingbuffer) : Nat → Nat → RtRingbuffer × List Byte
  | 0, _ => (rb, [])
  | fuel + 1, count =>
    if count = 0 then (rb, [])
    else
      let (rb, bytes) := rb.get (BitVec.ofNat 16 count)
      if bytes = [] then (rb, [])
      else
        let (rb, rest) := getAll rb fuel (count - bytes.length)
        (rb, bytes ++ rest)

def rtPipeRead (pipe : Pipe) (count : Nat) : Option (Pipe × List Byte) :=
  if count = 0 then some (pipe, [])
  else pipe.2.fifo.map fun rb =>
    let (rb, bytes) := getAll rb count count
    ((pipe.1, { pipe.2 with fifo := some rb }), bytes)

/-- What is left to write, as far as a `rt_uint16_t` counts it. -/
def blockOf (bytes : List Byte) : Block where
  bytes := bytes.take (bytes.length % 2 ^ 16)
  length_lt := (List.length_take_le _ _).trans_lt (Nat.mod_lt _ (by decide))

/-- The loop of `rt_pipe_write`. -/
def putAll (rb : RtRingbuffer) : Nat → List Byte → RtRingbuffer × Nat
  | 0, _ => (rb, 0)
  | fuel + 1, bytes =>
    if bytes = [] then (rb, 0)
    else
      let (rb, len) := rb.put (blockOf bytes)
      if len = 0 then (rb, 0)
      else
        let (rb, rest) := putAll rb fuel (bytes.drop len)
        (rb, len + rest)

def rtPipeWrite (pipe : Pipe) (bytes : List Byte) : Option (Pipe × Nat) :=
  if bytes = [] then some (pipe, 0)
  else pipe.2.fifo.map fun rb =>
    let (rb, len) := putAll rb bytes.length bytes
    ((pipe.1, { pipe.2 with fifo := some rb }), len)

/-- The functions of a pipe, where memory for a buffer is as it is. -/
def pipeOps (pool : Nat → Byte) (memory : Bool) : RtDeviceOps RtPipe where
  deviceOpen := some fun pipe _ => rtPipeOpen pool memory pipe
  deviceClose := some rtPipeClose

inductive Event where
  | open (oflag : BitVec 16) (pool : Nat → Byte) (memory : Bool)
  | close
  | read (count : Nat)
  | write (bytes : List Byte)

/-- `rt_device_read` and `rt_device_write` do nothing on a device that is not open. -/
def step (pipe : Pipe) : Event → Option Pipe
  | .open oflag pool memory => (rtDeviceOpen (pipeOps pool memory) pipe oflag).map Prod.fst
  | .close => (rtDeviceClose (pipeOps (fun _ => 0) false) pipe).map Prod.fst
  | .read count =>
    if pipe.1.refCount = 0 then some pipe else (rtPipeRead pipe count).map Prod.fst
  | .write bytes =>
    if pipe.1.refCount = 0 then some pipe else (rtPipeWrite pipe bytes).map Prod.fst

/-- `rt_pipe_create` -/
def start (bufsz : Nat) : Pipe := ({ flag := 0x007 }, { bufsz := bufsz })

/-- The bytes in the buffer. -/
def RtPipe.stored (p : RtPipe) : List Byte :=
  match p.fifo with
  | none => []
  | some rb => rb.contents

/-- The close that matches the last open. -/
def LastClose (pipe : Pipe) : Event → Prop
  | .close => pipe.1.refCount = 1
  | _ => False

def FirstOpen (pipe : Pipe) : Event → Prop
  | .open _ _ _ => pipe.1.refCount = 0
  | _ => False

/-- A last close frees the buffer and clears the pointer; a first open begins with an empty
buffer. -/
def Lifetime (pipe : Pipe) (e : Event) : Prop := ∀ pipe', step pipe e = some pipe' →
  (LastClose pipe e → pipe'.2.fifo = none ∧ pipe'.2.buffers = 0) ∧
    (FirstOpen pipe e → pipe'.2.stored = [])

/-- A last close finds no buffer. -/
def NoBuffer (pipe : Pipe) (e : Event) : Prop := LastClose pipe e → pipe.2.fifo = none

/-! ## Steps -/

section
variable {pipe pipe' : Pipe}

/-- A close never touches the buffer. -/
theorem step_close (h : step pipe .close = some pipe') : pipe'.2 = pipe.2 ∧
    (pipe'.1.refCount = pipe.1.refCount ∨ pipe'.1.refCount = pipe.1.refCount - 1) := by
  obtain ⟨⟨d, result⟩, hclose, rfl⟩ := Option.map_eq_some_iff.mp h
  rcases close_cases hclose with ⟨-, rfl⟩ | ⟨-, -, rfl⟩ | ⟨hone, d₁, hcall, rfl⟩
  · exact ⟨rfl, .inl rfl⟩
  · exact ⟨rfl, .inr rfl⟩
  · obtain ⟨rfl, rfl⟩ : ({ pipe.1 with refCount := 0 }, pipe.2) = d₁ ∧ Result.eok = result :=
      Prod.mk.inj (Option.some.inj hcall)
    rw [if_pos (.inl rfl), hone]
    exact ⟨rfl, .inr rfl⟩

theorem activate_eq {pool : Nat → Byte} {memory : Bool} {d : Pipe} {result : Result}
    (h : activate (pipeOps pool memory) pipe = some (d, result)) :
    result = .eok ∧ d.2 = pipe.2 ∧ d.1.refCount = pipe.1.refCount := by
  unfold activate at h
  split at h
  · obtain ⟨rfl, rfl⟩ := Prod.mk.inj (Option.some.inj h)
    exact ⟨rfl, rfl, rfl⟩
  · obtain ⟨rfl, rfl⟩ := Prod.mk.inj (Option.some.inj h)
    exact ⟨rfl, rfl, rfl⟩

theorem open_driver {pool : Nat → Byte} {memory : Bool} {d : Pipe} {result : Result}
    (h : rtPipeOpen pool memory pipe = some (d, result)) : d.2 = pipe.2 ∧ pipe.2.fifo ≠ none ∨
      pipe.2.fifo = none ∧ ∃ fifo, rtRingbufferCreate pool pipe.2.bufsz memory = some fifo ∧
        d.2 = { pipe.2 with
          fifo := fifo
          buffers := if fifo.isSome then pipe.2.buffers + 1 else pipe.2.buffers } := by
  unfold rtPipeOpen at h
  split at h
  · rename_i hfifo
    obtain ⟨rfl, rfl⟩ := Prod.mk.inj (Option.some.inj h)
    exact .inl ⟨rfl, by rw [hfifo]; nofun⟩
  · rename_i hfifo
    obtain ⟨fifo, hcreate, heq⟩ := Option.map_eq_some_iff.mp h
    obtain ⟨rfl, rfl⟩ := Prod.mk.inj heq
    exact .inr ⟨hfifo, fifo, hcreate, rfl⟩

/-- An open is not counted and changes nothing, or it leaves a buffer alone, or makes one where
there is none. -/
theorem step_open {oflag : BitVec 16} {pool : Nat → Byte} {memory : Bool}
    (h : step pipe (.open oflag pool memory) = some pipe') :
    (pipe'.2 = pipe.2 ∧ pipe'.1.refCount = pipe.1.refCount) ∨
    (pipe'.1.refCount ≠ 0 ∧ (pipe'.2 = pipe.2 ∧ pipe.2.fifo ≠ none ∨
      pipe.2.fifo = none ∧ ∃ fifo, rtRingbufferCreate pool pipe.2.bufsz memory = some fifo ∧
        pipe'.2 = { pipe.2 with
          fifo := fifo
          buffers := if fifo.isSome then pipe.2.buffers + 1 else pipe.2.buffers })) := by
  obtain ⟨⟨d, result⟩, hopen, rfl⟩ := Option.map_eq_some_iff.mp h
  obtain ⟨d₁, result₁, hact, hcase⟩ := open_cases hopen
  obtain ⟨-, hpriv, hcount⟩ := activate_eq hact
  rcases hcase with ⟨rfl, -⟩ | ⟨-, -, d₂, hcall, hcounted⟩
  · exact .inl ⟨hpriv, hcount⟩
  · have hdriver := open_driver hcall
    rw [hpriv] at hdriver
    unfold countOpen at hcounted
    split at hcounted
    · split at hcounted
      · cases hcounted
      · rename_i hne
        obtain rfl := congrArg Prod.fst (Option.some.inj hcounted)
        exact .inr ⟨hne, hdriver⟩
    · rename_i hfail
      refine absurd (.inl ?_) hfail
      unfold callOpen pipeOps rtPipeOpen at hcall
      dsimp only at hcall
      split at hcall
      · exact (Prod.mk.inj (Option.some.inj hcall)).2.symm
      · obtain ⟨fifo, -, heq⟩ := Option.map_eq_some_iff.mp hcall
        exact (Prod.mk.inj heq).2.symm

/-- A read or a write does not count, and leaves a buffer a buffer. -/
theorem step_transfer {e : Event} (h : step pipe e = some pipe')
    (he : (∃ count, e = .read count) ∨ ∃ bytes, e = .write bytes) :
    pipe'.1 = pipe.1 ∧ pipe'.2.buffers = pipe.2.buffers ∧
      pipe'.2.fifo.isSome = pipe.2.fifo.isSome := by
  rcases he with ⟨count, rfl⟩ | ⟨bytes, rfl⟩
  all_goals
    unfold step at h
    dsimp only at h
    split at h
    · obtain rfl := Option.some.inj h
      exact ⟨rfl, rfl, rfl⟩
    obtain ⟨⟨d, result⟩, hcall, rfl⟩ := Option.map_eq_some_iff.mp h
  · unfold rtPipeRead at hcall
    split at hcall
    · obtain ⟨rfl, rfl⟩ := Prod.mk.inj (Option.some.inj hcall)
      exact ⟨rfl, rfl, rfl⟩
    · obtain ⟨rb, hrb, heq⟩ := Option.map_eq_some_iff.mp hcall
      obtain ⟨rfl, rfl⟩ := Prod.mk.inj heq
      exact ⟨rfl, rfl, by rw [hrb]; rfl⟩
  · unfold rtPipeWrite at hcall
    split at hcall
    · obtain ⟨rfl, rfl⟩ := Prod.mk.inj (Option.some.inj hcall)
      exact ⟨rfl, rfl, rfl⟩
    · obtain ⟨rb, hrb, heq⟩ := Option.map_eq_some_iff.mp hcall
      obtain ⟨rfl, rfl⟩ := Prod.mk.inj heq
      exact ⟨rfl, rfl, by rw [hrb]; rfl⟩

/-- The buffer is counted, and there is none while the pipe is not open. -/
structure Inv (pipe : Pipe) : Prop where
  counted : pipe.2.buffers = if pipe.2.fifo.isSome then 1 else 0
  closed : pipe.1.refCount = 0 → pipe.2.fifo = none

theorem Inv.step {e : Event} (h : Inv pipe) (hgood : NoBuffer pipe e)
    (hstep : PipeDevice.step pipe e = some pipe') : Inv pipe' := by
  cases e with
  | «open» oflag pool memory =>
    rcases step_open hstep with ⟨hsame, hcount⟩ | ⟨hne, ⟨hsame, -⟩ | ⟨hnone, fifo, -, hnew⟩⟩
    · exact ⟨hsame ▸ h.counted, fun h0 => hsame ▸ h.closed (hcount ▸ h0)⟩
    · exact ⟨hsame ▸ h.counted, fun h0 => absurd h0 hne⟩
    · refine ⟨?_, fun h0 => absurd h0 hne⟩
      have hzero : pipe.2.buffers = 0 := by
        rw [h.counted, hnone]
        rfl
      rw [hnew, hzero]
  | close =>
    obtain ⟨hsame, hcount⟩ := step_close hstep
    refine ⟨hsame ▸ h.counted, fun h0 => ?_⟩
    rw [hsame]
    rcases hcount with hcount | hcount
    · exact h.closed (hcount ▸ h0)
    · exact hgood (show pipe.1.refCount = 1 by bv_omega)
  | read count =>
    obtain ⟨hdev, hbuffers, hfifo⟩ := step_transfer hstep (.inl ⟨count, rfl⟩)
    refine ⟨by rw [hbuffers, hfifo, h.counted], fun h0 => ?_⟩
    rw [← Option.isNone_iff_eq_none, ← Option.not_isSome, hfifo, h.closed (hdev ▸ h0)]
    rfl
  | write bytes =>
    obtain ⟨hdev, hbuffers, hfifo⟩ := step_transfer hstep (.inr ⟨bytes, rfl⟩)
    refine ⟨by rw [hbuffers, hfifo, h.counted], fun h0 => ?_⟩
    rw [← Option.isNone_iff_eq_none, ← Option.not_isSome, hfifo, h.closed (hdev ▸ h0)]
    rfl

theorem Inv.lifetime {e : Event} (h : Inv pipe) (hgood : NoBuffer pipe e) : Lifetime pipe e := by
  intro pipe' hstep
  refine ⟨fun hlast => ?_, fun hfirst => ?_⟩
  · cases e with
    | close =>
      obtain ⟨hsame, -⟩ := step_close hstep
      have hnone := hgood hlast
      have hcounted := h.counted
      rw [hnone] at hcounted
      rw [hsame]
      exact ⟨hnone, hcounted⟩
    | _ => cases hlast
  · cases e with
    | «open» oflag pool memory =>
      have hnone := h.closed hfirst
      unfold RtPipe.stored
      rcases step_open hstep with ⟨hsame, -⟩ | ⟨-, ⟨-, hne⟩ | ⟨-, fifo, hcreate, hnew⟩⟩
      · rw [hsame, hnone]
      · exact absurd hnone hne
      · rw [hnew]
        cases fifo with
        | none => rfl
        | some rb => exact (create_spec hcreate).2
    | _ => cases hfirst

/-- A last close returns. -/
theorem close_returns (h : pipe.1.refCount = 1) : ∃ pipe', step pipe .close = some pipe' := by
  have hclose : rtDeviceClose (pipeOps (fun _ => 0) false) pipe =
      some (({ pipe.1 with refCount := 0, openFlag := rtDeviceOflagClose }, pipe.2), .eok) := by
    unfold rtDeviceClose
    rw [h]
    rfl
  exact ⟨_, congrArg (Option.map Prod.fst) hclose⟩

theorem Lifetime.noBuffer {e : Event} (h : Lifetime pipe e) : NoBuffer pipe e := by
  intro hlast
  cases e with
  | close =>
    obtain ⟨pipe', hstep⟩ := close_returns hlast
    obtain ⟨hsame, -⟩ := step_close hstep
    exact hsame ▸ ((h pipe' hstep).1 hlast).1
  | _ => cases hlast

theorem inv_start (bufsz : Nat) : Inv (start bufsz) := ⟨rfl, fun _ => rfl⟩

/-- The lifetime is right exactly in the runs in which no last close finds a buffer. -/
theorem lifetime_along_iff (bufsz : Nat) (es : List Event) :
    Along step Lifetime (start bufsz) es ↔ Along step NoBuffer (start bufsz) es := by
  constructor
  · exact along_of_along (J := fun _ => True) (fun _ _ _ _ _ _ => trivial)
      (fun _ _ _ h => h.noBuffer) trivial
  · exact along_of_along (J := Inv) (fun _ _ _ h hgood hstep => h.step hgood hstep)
      (fun _ _ h hgood => h.lifetime hgood) (inv_start bufsz)

/-- A pipe is opened, a byte is written, and the pipe is closed: the buffer stays, with the byte
in it. -/
theorem buffer_outlives_close :
    ¬ Along step Lifetime (start 16) [.open 0x003 (fun _ => 0) true, .write [7], .close] := by
  intro h
  have hrun : ((run step (start 16) [.open 0x003 (fun _ => 0) true, .write [7]]).map fun pipe =>
      (pipe.1.refCount, pipe.2.stored)) = some (1, [7]) := by decide
  obtain ⟨pipe, hpipe, heq⟩ := Option.map_eq_some_iff.mp hrun
  obtain ⟨hcount, hstored⟩ := Prod.mk.inj heq
  obtain ⟨pipe', hclose⟩ := close_returns hcount
  have hlast := ((along_append (start 16) _ [.close]).mp h).2 pipe hpipe pipe' hclose
  unfold RtPipe.stored at hstored
  rw [hlast.1.noBuffer hcount] at hstored
  cases hstored

end

end ControlRTT.Drivers.PipeDevice

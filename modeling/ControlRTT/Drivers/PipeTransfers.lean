import ControlRTT.Drivers.PipeDevice

/-! # How much a pipe transfers (pipe.c)

The ring buffer takes a number of bytes as a `rt_uint16_t`. A transfer of more than that is cut to
its remainder, and a multiple of 65536 comes to nothing (`transfers_throughout_iff`). -/
namespace ControlRTT.Drivers.PipeTransfers
open ControlRTT.Lib ControlRTT.Lib.CInt ControlRTT.Lib.Runs ControlRTT.Drivers.RingBuffer
open ControlRTT.Drivers.Pipe (ReadCall WriteCall ReadTurn WriteTurn)
open ControlRTT.Drivers.PipeDevice (getAll putAll blockOf rtPipeRead rtPipeWrite)

/-! ## What is promised -/

section
variable (d : PipeDevice.Pipe) (p : Pipe.RtPipe) (rb : RtRingbuffer)

/-- `rt_pipe_write` takes what there is room for. -/
def DeviceWrites (bytes : List Byte) : Prop :=
  0 < rb.spaceLen → ∃ d', rtPipeWrite d bytes = some (d', min bytes.length rb.spaceLen)

/-- `rt_pipe_read` returns what there is. -/
def DeviceReads (count : Nat) : Prop :=
  0 < rb.dataLen → ∃ d' bytes, rtPipeRead d count = some (d', bytes) ∧
    bytes.length = min count rb.dataLen

/-- The first turn of `pipe_fops_write`. -/
def FopsWrites (c : WriteCall) : Prop :=
  0 < rb.spaceLen → ∃ p' turn, p.writeTurn c = some (p', min c.buf.length rb.spaceLen, turn)

/-- What `pipe_fops_read` returns, if it is no error and the call does not wait. -/
def returned : ReadTurn → Option Nat
  | .endOfFile => some 0
  | .data bytes => some bytes.length
  | .again => none
  | .wait => none

def FopsReads (c : ReadCall) : Prop :=
  0 < rb.dataLen → ∃ p' turn, p.readTurn c = some (p', turn) ∧
    returned turn = some (min c.count.toNat rb.dataLen)

/-- A write that waits has put something, if there was room. -/
def Progresses (c : WriteCall) : Prop :=
  0 < rb.spaceLen → ∀ p' n ret, p.writeTurn c = some (p', n, .wait ret) → 0 < n

end

/-- A `rt_uint16_t` keeps the count, or what it keeps is more than enough. -/
def Fits (count available : Nat) : Prop := count < 2 ^ 16 ∨ available ≤ count % 2 ^ 16

theorem fits_iff {count available : Nat} :
    min (count % 2 ^ 16) available = min count available ↔ Fits count available := by
  unfold Fits
  omega

section
variable {d : PipeDevice.Pipe} {p : Pipe.RtPipe} {rb : RtRingbuffer} {bytes : List Byte}
  {fuel count : Nat}

/-! ## The loops -/

theorem put_length (h : rb.Ok) (block : Block) :
    (rb.put block).1.Ok ∧ (rb.put block).2 = min block.bytes.length rb.spaceLen ∧
      (rb.put block).1.spaceLen = rb.spaceLen - (rb.put block).2 := by
  obtain ⟨q, hq⟩ := h.refines
  obtain ⟨hnext, hret⟩ := hq.put block
  rw [← hq.spaceLen] at hret
  refine ⟨hnext.ok, hret, ?_⟩
  rw [hnext.spaceLen, hret, hq.spaceLen]
  simp only [BoundedQueue.space, BoundedQueue.items_put, List.length_append, List.length_take]
  omega

theorem get_length (h : rb.Ok) (length : BitVec 16) :
    (rb.get length).1.Ok ∧ (rb.get length).2.length = min length.toNat rb.dataLen ∧
      (rb.get length).1.dataLen = rb.dataLen - (rb.get length).2.length := by
  obtain ⟨q, hq⟩ := h.refines
  obtain ⟨hnext, hbytes⟩ := hq.get length
  have hlength : (rb.get length).2.length = min length.toNat rb.dataLen := by
    rw [hbytes, List.length_take, hq.dataLen]
  refine ⟨hnext.ok, hlength, ?_⟩
  rw [hnext.dataLen, hlength, BoundedQueue.items_drop, List.length_drop, hq.dataLen]
  omega

theorem length_blockOf (bytes : List Byte) :
    (blockOf bytes).bytes.length = bytes.length % 2 ^ 16 := by
  have hle := Nat.mod_le bytes.length (2 ^ 16)
  rw [blockOf, List.length_take]
  omega

/-- A turn that puts nothing is the last one. -/
theorem putAll_none (h : rb.Ok) (hnone : min (bytes.length % 2 ^ 16) rb.spaceLen = 0) :
    (putAll rb fuel bytes).2 = 0 := by
  cases fuel with
  | zero => rfl
  | succ fuel =>
    unfold putAll
    split
    · rfl
    · have hput := (put_length h (blockOf bytes)).2.1
      rw [length_blockOf, hnone] at hput
      dsimp only
      rw [if_pos hput]

/-- What the first turn has cut off, the next one does not see. -/
theorem putAll_length (h : rb.Ok) (hfuel : bytes.length ≤ fuel) :
    (putAll rb fuel bytes).2 = min (bytes.length % 2 ^ 16) rb.spaceLen := by
  cases fuel with
  | zero =>
    obtain rfl := List.length_eq_zero_iff.mp (Nat.le_zero.mp hfuel)
    rfl
  | succ fuel =>
    obtain ⟨hok, hput, hspace⟩ := put_length h (blockOf bytes)
    rw [length_blockOf] at hput
    unfold putAll
    split
    · rename_i hempty
      rw [hempty]
      rfl
    · dsimp only
      split
      · rename_i hzero
        exact hzero.symm.trans hput
      · rw [putAll_none hok, Nat.add_zero, hput]
        rw [List.length_drop, hspace, hput]
        omega

theorem getAll_none (h : rb.Ok) (hnone : min (count % 2 ^ 16) rb.dataLen = 0) :
    (getAll rb fuel count).2 = [] := by
  cases fuel with
  | zero => rfl
  | succ fuel =>
    unfold getAll
    split
    · rfl
    · have hget := (get_length h (BitVec.ofNat 16 count)).2.1
      rw [BitVec.toNat_ofNat, hnone] at hget
      dsimp only
      rw [if_pos (List.length_eq_zero_iff.mp hget)]

theorem getAll_length (h : rb.Ok) (hfuel : count ≤ fuel) :
    (getAll rb fuel count).2.length = min (count % 2 ^ 16) rb.dataLen := by
  cases fuel with
  | zero =>
    obtain rfl := Nat.le_zero.mp hfuel
    exact (Nat.zero_min _).symm
  | succ fuel =>
    obtain ⟨hok, hget, hdata⟩ := get_length h (BitVec.ofNat 16 count)
    rw [BitVec.toNat_ofNat] at hget
    unfold getAll
    split
    · rename_i hempty
      rw [hempty]
      exact (Nat.zero_min _).symm
    · dsimp only
      split
      · rename_i hzero
        rw [hzero] at hget
        exact hget
      · rw [getAll_none hok, List.append_nil, hget]
        rw [hdata, hget]
        omega

/-! ## One call -/

theorem deviceWrites_iff (h : rb.Ok) (hfifo : d.2.fifo = some rb) :
    DeviceWrites d rb bytes ↔ (0 < rb.spaceLen → Fits bytes.length rb.spaceLen) := by
  refine imp_congr_right fun _ => ?_
  rw [← fits_iff]
  unfold rtPipeWrite
  split
  · rename_i hempty
    rw [hempty]
    simp
  · rw [hfifo, Option.map_some]
    dsimp only
    rw [putAll_length h (Nat.le_refl _)]
    constructor
    · rintro ⟨d', heq⟩
      exact (Prod.mk.inj (Option.some.inj heq)).2
    · intro heq
      rw [heq]
      exact ⟨_, rfl⟩

theorem deviceReads_iff (h : rb.Ok) (hfifo : d.2.fifo = some rb) :
    DeviceReads d rb count ↔ (0 < rb.dataLen → Fits count rb.dataLen) := by
  refine imp_congr_right fun _ => ?_
  rw [← fits_iff]
  unfold rtPipeRead
  split
  · rename_i hempty
    rw [hempty]
    simp
  · rw [hfifo, Option.map_some]
    have hlength := getAll_length h (Nat.le_refl count)
    constructor
    · rintro ⟨d', bytes, heq, hbytes⟩
      obtain ⟨-, rfl⟩ := Prod.mk.inj (Option.some.inj heq)
      exact hlength.symm.trans hbytes
    · intro heq
      exact ⟨_, _, rfl, hlength.trans heq⟩

theorem length_block (c : WriteCall) :
    c.block.bytes.length = (c.buf.length - c.ret) % 2 ^ 16 := by
  have hle := Nat.mod_le (c.buf.length - c.ret) (2 ^ 16)
  rw [WriteCall.block, List.length_take, List.length_drop]
  omega

theorem fopsWrites_iff (h : rb.Ok) (hfifo : p.fifo = some rb) {c : WriteCall} (hc : c.buf ≠ [])
    (hfirst : c.ret = 0) : FopsWrites p rb c ↔
      (0 < rb.spaceLen → p.readers ≠ 0 ∧ Fits c.buf.length rb.spaceLen) := by
  refine imp_congr_right fun hspace => ?_
  have hpos := List.length_pos_iff.mpr hc
  have hput := (put_length h c.block).2.1
  rw [length_block, hfirst, Nat.sub_zero] at hput
  rw [← fits_iff]
  unfold Pipe.RtPipe.writeTurn
  split
  · rename_i hreaders
    refine iff_of_false ?_ fun hand => hand.1 hreaders
    rintro ⟨p', turn, heq⟩
    have hzero := (Prod.mk.inj (Prod.mk.inj (Option.some.inj heq)).2).1
    omega
  · rename_i hreaders
    rw [hfifo, Option.map_some, hput, and_iff_right hreaders]
    constructor
    · rintro ⟨p', turn, heq⟩
      exact (Prod.mk.inj (Prod.mk.inj (Option.some.inj heq)).2).1
    · intro heq
      rw [heq]
      exact ⟨_, _, rfl⟩

/-- Only data is returned by a turn that has got some. -/
theorem returned_turn {c : ReadCall} {n : Nat} (h : returned (c.turn bytes) = some n) :
    bytes.length = n ∧ 0 < n := by
  unfold ReadCall.turn at h
  split at h
  · rename_i hne
    have hlength := Option.some.inj h
    exact ⟨hlength, hlength ▸ List.length_pos_iff.mpr hne⟩
  · split at h
    · cases h
    · cases h

theorem fopsReads_iff (h : rb.Ok) (hfifo : p.fifo = some rb) {c : ReadCall} :
    FopsReads p rb c ↔ (0 < rb.dataLen → (p.writers = 0 ↔ c.count = 0) ∧
      Fits c.count.toNat rb.dataLen) := by
  refine imp_congr_right fun hdata => ?_
  have hget := (get_length h (c.count.setWidth 16)).2.1
  rw [BitVec.toNat_setWidth] at hget
  have hzero : c.count = 0 ↔ c.count.toNat = 0 := by
    rw [← BitVec.toNat_inj]
    rfl
  rw [← fits_iff, hzero]
  unfold Pipe.RtPipe.readTurn
  split
  · rename_i hwriters
    rw [iff_true_left hwriters]
    constructor
    · rintro ⟨p', turn, heq, hreturned⟩
      obtain ⟨-, rfl⟩ := Prod.mk.inj (Option.some.inj heq)
      have hmin := Option.some.inj hreturned
      omega
    · rintro ⟨hnone, -⟩
      exact ⟨_, _, rfl, congrArg some (by omega)⟩
  · rename_i hwriters
    rw [hfifo, Option.map_some, iff_false_left hwriters]
    constructor
    · rintro ⟨p', turn, heq, hreturned⟩
      obtain ⟨-, rfl⟩ := Prod.mk.inj (Option.some.inj heq)
      have hmin := (returned_turn hreturned)
      omega
    · rintro ⟨hsome, hfits⟩
      refine ⟨_, _, rfl, ?_⟩
      have hne : (rb.get (c.count.setWidth 16)).2 ≠ [] := fun hempty => by
        rw [hempty, List.length_nil] at hget
        omega
      rw [ReadCall.turn, if_pos hne]
      exact congrArg some (hget.trans hfits)

theorem progresses_iff (h : rb.Ok) (hfifo : p.fifo = some rb) {c : WriteCall}
    (hblock : c.nonblock = false) (hret : c.ret < c.buf.length) : Progresses p rb c ↔
      (0 < rb.spaceLen → p.readers = 0 ∨ (c.buf.length - c.ret) % 2 ^ 16 ≠ 0) := by
  refine imp_congr_right fun hspace => ?_
  have hput := (put_length h c.block).2.1
  rw [length_block] at hput
  unfold Pipe.RtPipe.writeTurn
  split
  · rename_i hreaders
    refine iff_of_true (fun p' n ret heq => ?_) (.inl hreaders)
    have hturn := (Prod.mk.inj (Prod.mk.inj (Option.some.inj heq)).2).2
    split at hturn
    · cases hturn
    · cases hturn
  · rename_i hreaders
    rw [hfifo, Option.map_some, or_iff_right hreaders]
    constructor
    · intro hall hzero
      have hnone : (rb.put c.block).2 = 0 := by omega
      have hwait : c.turn (rb.put c.block).2 = .wait c.ret := by
        rw [hnone, WriteCall.turn, Nat.add_zero, if_neg (Nat.ne_of_lt hret), hblock]
        rfl
      have hpos := hall _ _ c.ret (congrArg some (congrArg _ (congrArg _ hwait)))
      omega
    · intro hne p' n ret heq
      obtain ⟨rfl, -⟩ := Prod.mk.inj (Prod.mk.inj (Option.some.inj heq)).2
      omega

end

/-! ## Whole runs -/

/-- When the calls of the file system transfer what they should. -/
structure FopsTransfers (p : Pipe.RtPipe) (rb : RtRingbuffer) : Prop where
  writes : ∀ c : WriteCall, c.buf ≠ [] → c.ret = 0 → (FopsWrites p rb c ↔
    (0 < rb.spaceLen → p.readers ≠ 0 ∧ Fits c.buf.length rb.spaceLen))
  reads : ∀ c : ReadCall, FopsReads p rb c ↔
    (0 < rb.dataLen → (p.writers = 0 ↔ c.count = 0) ∧ Fits c.count.toNat rb.dataLen)
  progresses : ∀ c : WriteCall, c.nonblock = false → c.ret < c.buf.length → (Progresses p rb c ↔
    (0 < rb.spaceLen → p.readers = 0 ∨ (c.buf.length - c.ret) % 2 ^ 16 ≠ 0))

/-- When the calls of the device do. -/
structure DeviceTransfers (d : PipeDevice.Pipe) (rb : RtRingbuffer) : Prop where
  writes : ∀ bytes, DeviceWrites d rb bytes ↔
    (0 < rb.spaceLen → Fits bytes.length rb.spaceLen)
  reads : ∀ count, DeviceReads d rb count ↔ (0 < rb.dataLen → Fits count rb.dataLen)

section
variable {d d' : PipeDevice.Pipe} {rb : RtRingbuffer}

theorem putAll_ok (h : rb.Ok) (fuel : Nat) (bytes : List Byte) : (putAll rb fuel bytes).1.Ok := by
  induction fuel generalizing rb bytes with
  | zero => exact h
  | succ fuel ih =>
    unfold putAll
    split
    · exact h
    · dsimp only
      split
      · exact (put_length h _).1
      · exact ih (put_length h _).1 _

theorem getAll_ok (h : rb.Ok) (fuel count : Nat) : (getAll rb fuel count).1.Ok := by
  induction fuel generalizing rb count with
  | zero => exact h
  | succ fuel ih =>
    unfold getAll
    split
    · exact h
    · dsimp only
      split
      · exact (get_length h _).1
      · exact ih (get_length h _).1 _

/-- Every buffer that a pipe has as a device is one. -/
def DeviceOk (d : PipeDevice.Pipe) : Prop := ∀ rb, d.2.fifo = some rb → rb.Ok

theorem DeviceOk.step {e : PipeDevice.Event} (h : DeviceOk d)
    (hstep : PipeDevice.step d e = some d') : DeviceOk d' := by
  cases e with
  | «open» oflag pool memory =>
    rcases PipeDevice.step_open hstep with ⟨hsame, -⟩ | ⟨-, ⟨hsame, -⟩ | ⟨-, fifo, hcreate, hnew⟩⟩
    · exact fun rb hrb => h rb (hsame ▸ hrb)
    · exact fun rb hrb => h rb (hsame ▸ hrb)
    · intro rb hrb
      rw [hnew] at hrb
      obtain rfl : fifo = some rb := hrb
      exact (Pipe.create_spec hcreate).1
  | close => exact fun rb hrb => h rb ((PipeDevice.step_close hstep).1 ▸ hrb)
  | read count =>
    unfold PipeDevice.step at hstep
    dsimp only at hstep
    split at hstep
    · exact Option.some.inj hstep ▸ h
    · obtain ⟨⟨d₁, out⟩, hcall, rfl⟩ := Option.map_eq_some_iff.mp hstep
      unfold rtPipeRead at hcall
      split at hcall
      · obtain ⟨rfl, -⟩ := Prod.mk.inj (Option.some.inj hcall)
        exact h
      · obtain ⟨rb, hrb, heq⟩ := Option.map_eq_some_iff.mp hcall
        obtain ⟨rfl, -⟩ := Prod.mk.inj heq
        intro rb' hrb'
        obtain rfl := Option.some.inj hrb'
        exact getAll_ok (h rb hrb) _ _
  | write bytes =>
    unfold PipeDevice.step at hstep
    dsimp only at hstep
    split at hstep
    · exact Option.some.inj hstep ▸ h
    · obtain ⟨⟨d₁, out⟩, hcall, rfl⟩ := Option.map_eq_some_iff.mp hstep
      unfold rtPipeWrite at hcall
      split at hcall
      · obtain ⟨rfl, -⟩ := Prod.mk.inj (Option.some.inj hcall)
        exact h
      · obtain ⟨rb, hrb, heq⟩ := Option.map_eq_some_iff.mp hcall
        obtain ⟨rfl, -⟩ := Prod.mk.inj heq
        intro rb' hrb'
        obtain rfl := Option.some.inj hrb'
        exact putAll_ok (h rb hrb) _ _

end

/-- In every state of every run, each call transfers what it should exactly if the count fits or
what it is cut to is enough; a call of the file system needs the other end, too. A write that waits
with room has nothing left that a `rt_uint16_t` would keep. -/
theorem transfers_throughout_iff {Thread : Type} [DecidableEq Thread] (bufsz : Nat) :
    (∀ es : List (Pipe.Event Thread), Throughout Pipe.step
      (fun o => ∀ rb, o.pipe.fifo = some rb → FopsTransfers o.pipe rb) (Pipe.start bufsz) es) ∧
    ∀ es, Throughout PipeDevice.step (fun d => ∀ rb, d.2.fifo = some rb → DeviceTransfers d rb)
      (PipeDevice.start bufsz) es := by
  constructor
  · refine fun es => throughout_of_keep (J := Pipe.Inv) (fun o h rb hrb => ?_)
      (fun _ _ _ h => h.step) (Pipe.inv_start bufsz) es
    have hok := h.ok rb hrb
    exact ⟨fun c => fopsWrites_iff hok hrb, fun c => fopsReads_iff hok hrb,
      fun c => progresses_iff hok hrb⟩
  · refine fun es => throughout_of_keep (J := DeviceOk) (fun d h rb hrb => ?_)
      (fun _ _ _ h => h.step) (fun rb hrb => (by cases hrb)) es
    have hok := h rb hrb
    exact ⟨fun bytes => deviceWrites_iff hok hrb, fun count => deviceReads_iff hok hrb⟩

/-- A pipe of 16 bytes is open at both ends, and a write of 65536 bytes puts none. -/
theorem multiple_not_written : ∃ o : Pipe.Observed Unit, ∃ rb,
    run Pipe.step (Pipe.start 16) [.open .rdwr (fun _ => 0) true] = some o ∧
      o.pipe.fifo = some rb ∧ 0 < rb.spaceLen ∧
      ¬FopsWrites o.pipe rb { buf := List.replicate 65536 7, nonblock := true } := by
  refine ⟨_, _, rfl, rfl, by decide, fun hwrites => ?_⟩
  have hok := (@Pipe.create_spec (fun _ => 0) 16 true _ rfl).1
  have hne : List.replicate 65536 (7 : Byte) ≠ [] := List.ne_nil_of_length_pos (by
    rw [List.length_replicate]
    decide)
  obtain ⟨-, hfits⟩ := (fopsWrites_iff hok rfl hne rfl).mp hwrites (by decide)
  rw [List.length_replicate] at hfits
  exact absurd hfits (by unfold Fits; decide)

end ControlRTT.Drivers.PipeTransfers

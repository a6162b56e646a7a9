import ControlRTT.Lib.Runs
import ControlRTT.Drivers.RingBufferCreate
import ControlRTT.Drivers.RingQueue
import Mathlib.Logic.Function.Basic

/-! # Pipes (pipe.c)

Readers and writers of one ring buffer, which is made by the first open and destroyed by the last
close. A read reports the end of the file when it finds no writer, and does not look at the buffer
before: the bytes of a writer that has closed are behind it. With what a last close destroys these
are all the bytes that get lost (`returned_along_iff`). -/
namespace ControlRTT.Drivers.Pipe
open ControlRTT.Lib ControlRTT.Lib.Runs ControlRTT.Lib.CInt ControlRTT.Kernel.RtDef
open ControlRTT.Drivers.RingBuffer

/-- `fd->flags & O_ACCMODE`; `other` is none of the three modes. -/
inductive Accmode where
  | rdonly
  | wronly
  | rdwr
  | other
  deriving DecidableEq, Repr

def Accmode.reads : Accmode → Bool
  | .rdonly | .rdwr => true
  | _ => false

def Accmode.writes : Accmode → Bool
  | .wronly | .rdwr => true
  | _ => false

structure RtPipe where
  bufsz : Nat
  fifo : Option RtRingbuffer := none
  readers : BitVec 8 := 0
  writers : BitVec 8 := 0
  refCount : BitVec 8 := 0

/-- A call of `pipe_fops_read` behind its first test. -/
structure ReadCall where
  count : BitVec 32
  nonblock : Bool
  deriving DecidableEq, Repr

/-- A call of `pipe_fops_write` behind its first tests; `ret` bytes of the buffer have been put. -/
structure WriteCall where
  buf : List Byte
  ret : Nat := 0
  nonblock : Bool
  deriving DecidableEq, Repr

/-- What a turn of the loop in a read comes to; `wait` is up to its next turn. -/
inductive ReadTurn where
  | endOfFile
  | data (bytes : List Byte)
  | again
  | wait
  deriving DecidableEq, Repr

inductive WriteTurn where
  | epipe
  | again
  | wrote (ret : Nat)
  | wait (ret : Nat)
  deriving DecidableEq, Repr

/-- What a read makes of what it has got. -/
def ReadCall.turn (c : ReadCall) (bytes : List Byte) : ReadTurn :=
  if bytes ≠ [] then .data bytes else if c.nonblock then .again else .wait

/-- `rt_malloc` where there is memory, for both blocks of a ring buffer, or none. -/
def rtMalloc (memory : Bool) (live : List Nat) (n : Nat) : Option Nat :=
  if memory ∧ n ≠ 0 then some (live.length + 1) else none

/-- `rt_ringbuffer_create` on a `rt_uint16_t`. The outer `none` is an assertion on the size, or a
pool of no bytes, for which the structure is freed and returned. -/
def rtRingbufferCreate (pool : Nat → Byte) (size : Nat) (memory : Bool) :
    Option (Option RtRingbuffer) :=
  (RingBufferCreate.rtRingbufferCreate (rtMalloc memory) pool [] (size % 2 ^ 16)).bind fun o =>
    if o.result = none then some none else o.buffer.map some

namespace RtPipe

/-- The first open makes the buffer. -/
def openFifo (p : RtPipe) (pool : Nat → Byte) (memory : Bool) : Option RtPipe :=
  if p.refCount = 0 then
    (rtRingbufferCreate pool p.bufsz memory).map fun fifo => { p with fifo := fifo }
  else some p

def pipeFopsOpen (p : RtPipe) (mode : Accmode) (pool : Nat → Byte) (memory : Bool) :
    Option RtPipe :=
  (p.openFifo pool memory).map fun p =>
    { p with
      readers := if mode.reads then p.readers + 1 else p.readers
      writers := if mode.writes then p.writers + 1 else p.writers
      refCount := p.refCount + 1 }

/-- The last close destroys the buffer, which is asserted to be there. -/
def closeFifo (p : RtPipe) : Option RtPipe :=
  if p.refCount = 1 then
    if p.fifo.isSome then some { p with fifo := none } else none
  else some p

def pipeFopsClose (p : RtPipe) (mode : Accmode) : Option RtPipe :=
  p.closeFifo.map fun p =>
    { p with
      readers := if mode.reads then p.readers - 1 else p.readers
      writers := if mode.writes then p.writers - 1 else p.writers
      refCount := p.refCount - 1 }

/-- A turn of the loop in `pipe_fops_read`, under the lock. The ring buffer takes the count as a
`rt_uint16_t`, and asserts that it is there. -/
def readTurn (p : RtPipe) (c : ReadCall) : Option (RtPipe × ReadTurn) :=
  if p.writers = 0 then some (p, .endOfFile)
  else p.fifo.map fun rb =>
    ({ p with fifo := some (rb.get (c.count.setWidth 16)).1 },
      c.turn (rb.get (c.count.setWidth 16)).2)

end RtPipe

/-- What is left of the buffer, as far as a `rt_uint16_t` counts it. -/
def WriteCall.block (c : WriteCall) : Block where
  bytes := (c.buf.drop c.ret).take ((c.buf.length - c.ret) % 2 ^ 16)
  length_lt := (List.length_take_le _ _).trans_lt (Nat.mod_lt _ (by decide))

/-- What a write makes of having put `len` bytes. -/
def WriteCall.turn (c : WriteCall) (len : Nat) : WriteTurn :=
  if c.ret + len = c.buf.length then .wrote (c.ret + len)
  else if c.nonblock then if c.ret + len = 0 then .again else .wrote (c.ret + len)
  else .wait (c.ret + len)

/-- A turn of the loop in `pipe_fops_write`, under the lock, with the number of bytes put. -/
def RtPipe.writeTurn (p : RtPipe) (c : WriteCall) : Option (RtPipe × Nat × WriteTurn) :=
  if p.readers = 0 then some (p, 0, if c.ret = 0 then .epipe else .wrote c.ret)
  else p.fifo.map fun rb =>
    ({ p with fifo := some (rb.put c.block).1 }, (rb.put c.block).2, c.turn (rb.put c.block).2)

inductive Event (Thread : Type) where
  | open (mode : Accmode) (pool : Nat → Byte) (memory : Bool)
  | close (mode : Accmode)
  | read (t : Thread) (count : BitVec 32) (nonblock : Bool)
  | readTurn (t : Thread)
  | write (t : Thread) (buf : List Byte) (nonblock : Bool)
  | writeTurn (t : Thread)

/-- A pipe with the calls under way, and the bytes that writes have put, reads have returned, and
that were in a buffer when it was destroyed or replaced. -/
structure Observed (Thread : Type) where
  pipe : RtPipe
  reading : Thread → Option ReadCall := fun _ => none
  writing : Thread → Option WriteCall := fun _ => none
  accepted : List Byte := []
  returned : List Byte := []
  dropped : List Byte := []

/-- The bytes in the pipe. -/
def RtPipe.stored (p : RtPipe) : List Byte :=
  match p.fifo with
  | none => []
  | some rb => rb.contents

variable {Thread : Type} [DecidableEq Thread]

namespace Observed

def setReading (o : Observed Thread) (t : Thread) (c : Option ReadCall) : Observed Thread :=
  { o with reading := Function.update o.reading t c }

def setWriting (o : Observed Thread) (t : Thread) (c : Option WriteCall) : Observed Thread :=
  { o with writing := Function.update o.writing t c }

/-- The pipe after an open or a close. -/
def refit (o : Observed Thread) (p : RtPipe) (drops : Bool) : Observed Thread :=
  { o with
    pipe := p
    dropped := if drops then o.dropped ++ o.pipe.stored else o.dropped }

def afterRead (o : Observed Thread) (t : Thread) (c : ReadCall)
    (result : RtPipe × ReadTurn) : Observed Thread :=
  match result.2 with
  | .data bytes =>
    { o.setReading t none with pipe := result.1, returned := o.returned ++ bytes }
  | .wait => { o.setReading t (some c) with pipe := result.1 }
  | _ => { o.setReading t none with pipe := result.1 }

def afterWrite (o : Observed Thread) (t : Thread) (c : WriteCall)
    (result : RtPipe × Nat × WriteTurn) : Observed Thread :=
  match result.2.2 with
  | .wait ret =>
    { o.setWriting t (some { c with ret := ret }) with
      pipe := result.1
      accepted := o.accepted ++ c.block.bytes.take result.2.1 }
  | _ =>
    { o.setWriting t none with
      pipe := result.1
      accepted := o.accepted ++ c.block.bytes.take result.2.1 }

end Observed

/-- A thread in a call goes on with it when it has the lock; one that waits on a queue may come
back at any time. -/
def step (o : Observed Thread) : Event Thread → Option (Observed Thread)
  | .open mode pool memory =>
    (o.pipe.pipeFopsOpen mode pool memory).map fun p => o.refit p (o.pipe.refCount = 0)
  | .close mode => (o.pipe.pipeFopsClose mode).map fun p => o.refit p (o.pipe.refCount = 1)
  | .read t count nonblock =>
    if o.reading t = none ∧ o.writing t = none then
      if o.pipe.writers = 0 then some o
      else some (o.setReading t (some { count := count, nonblock := nonblock }))
    else none
  | .readTurn t => (o.reading t).bind fun c => (o.pipe.readTurn c).map (o.afterRead t c)
  | .write t buf nonblock =>
    if o.reading t = none ∧ o.writing t = none then
      if o.pipe.readers = 0 ∨ buf = [] then some o
      else some (o.setWriting t (some { buf := buf, nonblock := nonblock }))
    else none
  | .writeTurn t => (o.writing t).bind fun c => (o.pipe.writeTurn c).map (o.afterWrite t c)

/-- `rt_pipe_create` -/
def start (bufsz : Nat) : Observed Thread where
  pipe := { bufsz := bufsz }

/-- A read finds no writer and returns 0, before it takes the lock or in its loop. -/
def EndOfFile (o : Observed Thread) : Event Thread → Prop
  | .read _ _ _ => o.pipe.writers = 0
  | .readTurn _ => o.pipe.writers = 0
  | _ => False

/-- Where the end of the file is reported, every accepted byte has been returned, in its order. -/
def AllReturned (o : Observed Thread) (e : Event Thread) : Prop :=
  EndOfFile o e → o.returned = o.accepted

/-- Where the end of the file is reported, the buffer is empty, and none has been given up that was
not. -/
def Drained (o : Observed Thread) (e : Event Thread) : Prop :=
  EndOfFile o e → o.pipe.stored = [] ∧ o.dropped = []

/-! ## The buffer -/

theorem get_spec {rb : RtRingbuffer} (h : rb.Ok) (length : BitVec 16) :
    (rb.get length).1.Ok ∧ rb.contents = (rb.get length).2 ++ (rb.get length).1.contents := by
  obtain ⟨q, hq⟩ := h.refines
  obtain ⟨hnext, hdata⟩ := hq.get length
  refine ⟨hnext.ok, ?_⟩
  rw [hdata, hnext.items, BoundedQueue.items_drop, List.take_append_drop, hq.items]

theorem put_spec {rb : RtRingbuffer} (h : rb.Ok) (block : Block) :
    (rb.put block).1.Ok ∧
      (rb.put block).1.contents = rb.contents ++ block.bytes.take (rb.put block).2 := by
  obtain ⟨q, hq⟩ := h.refines
  obtain ⟨hnext, hret⟩ := hq.put block
  refine ⟨hnext.ok, ?_⟩
  rw [hret, hnext.items, BoundedQueue.items_put, hq.items, Nat.min_comm, ← List.take_take,
    List.take_length]

/-- A new buffer is empty. -/
theorem create_spec {pool : Nat → Byte} {size : Nat} {memory : Bool} {rb : RtRingbuffer}
    (h : rtRingbufferCreate pool size memory = some (some rb)) : rb.Ok ∧ rb.contents = [] := by
  obtain ⟨o, hcall, hresult⟩ := Option.bind_eq_some_iff.mp h
  split at hresult
  · cases hresult
  · obtain ⟨b, hbuffer, heq⟩ := Option.map_eq_some_iff.mp hresult
    obtain rfl := Option.some.inj heq
    obtain ⟨⟨hpos, hlt⟩, rfl⟩ :=
      RingBufferCreate.create_buffer (Nat.mod_lt size (by decide)) hcall hbuffer
    have hmin : 4 ≤ rtAlignDown (size % 2 ^ 16) rtAlignSize := by
      unfold rtAlignDown rtAlignSize at hpos ⊢
      omega
    have hinit := Refines.init pool hmin (Nat.le_of_lt_succ hlt)
    exact ⟨hinit.ok, hinit.items⟩

/-! ## What every step keeps -/

/-- Accepted bytes have been returned or given up, or are in the buffer. -/
structure Inv (o : Observed Thread) : Prop where
  ok : ∀ rb, o.pipe.fifo = some rb → rb.Ok
  order : o.dropped = [] → o.accepted = o.returned ++ o.pipe.stored
  length : o.accepted.length =
    o.returned.length + o.dropped.length + o.pipe.stored.length

theorem stored_some {p : RtPipe} {rb : RtRingbuffer} (h : p.fifo = some rb) :
    p.stored = rb.contents := by
  unfold RtPipe.stored
  rw [h]

/-- What the turns of a read leave of everything but its own call. -/
theorem afterRead_eq (o : Observed Thread) (t : Thread) (c : ReadCall) (p : RtPipe)
    (bytes : List Byte) : ∃ reading, o.afterRead t c (p, c.turn bytes) =
      { o with pipe := p, reading := reading, returned := o.returned ++ bytes } := by
  by_cases hempty : bytes = []
  · rw [hempty, List.append_nil]
    cases hnonblock : c.nonblock with
    | true =>
      have hturn : c.turn [] = .again :=
        (if_neg (not_not.mpr rfl)).trans (if_pos hnonblock)
      rw [hturn]
      exact ⟨_, rfl⟩
    | false =>
      have hturn : c.turn [] = .wait :=
        (if_neg (not_not.mpr rfl)).trans (if_neg (ne_true_of_eq_false hnonblock))
      rw [hturn]
      exact ⟨_, rfl⟩
  · have hturn : c.turn bytes = .data bytes := if_pos hempty
    rw [hturn]
    exact ⟨_, rfl⟩

theorem afterRead_endOfFile (o : Observed Thread) (t : Thread) (c : ReadCall) :
    ∃ reading, o.afterRead t c (o.pipe, .endOfFile) = { o with reading := reading } :=
  ⟨_, rfl⟩

theorem afterWrite_eq (o : Observed Thread) (t : Thread) (c : WriteCall) (p : RtPipe) (len : Nat)
    (turn : WriteTurn) : ∃ writing, o.afterWrite t c (p, len, turn) =
      { o with
        pipe := p
        writing := writing
        accepted := o.accepted ++ c.block.bytes.take len } := by
  cases turn with
  | epipe => exact ⟨_, rfl⟩
  | again => exact ⟨_, rfl⟩
  | wrote ret => exact ⟨_, rfl⟩
  | wait ret => exact ⟨_, rfl⟩

namespace Inv
variable {o : Observed Thread}

omit [DecidableEq Thread] in
/-- The buffer is given up, and an empty one or none takes its place. -/
theorem given_up (h : Inv o) {p : RtPipe} (hok : ∀ rb, p.fifo = some rb → rb.Ok)
    (hempty : p.stored = []) : Inv (o.refit p true) where
  ok := hok
  order hdropped := by
    obtain ⟨hold, hstored⟩ := List.append_eq_nil_iff.mp hdropped
    have horder := h.order hold
    rw [hstored] at horder
    rw [hempty.symm] at horder
    exact horder
  length := by
    have hlen := h.length
    change o.accepted.length =
      o.returned.length + (o.dropped ++ o.pipe.stored).length + p.stored.length
    rw [hempty, List.length_append, List.length_nil]
    omega

omit [DecidableEq Thread] in
/-- The buffer stays. -/
theorem kept (h : Inv o) {p : RtPipe} (hfifo : p.fifo = o.pipe.fifo) :
    Inv (o.refit p false) := by
  have hstored : p.stored = o.pipe.stored := by
    unfold RtPipe.stored
    rw [hfifo]
  exact ⟨fun rb hrb => h.ok rb (hfifo ▸ hrb),
    fun hdropped => (h.order hdropped).trans (congrArg _ hstored.symm),
    h.length.trans (congrArg (_ + List.length ·) hstored.symm)⟩

omit [DecidableEq Thread] in
theorem opened (h : Inv o) {mode : Accmode} {pool : Nat → Byte} {memory : Bool} {p : RtPipe}
    (hp : o.pipe.pipeFopsOpen mode pool memory = some p) :
    Inv (o.refit p (o.pipe.refCount = 0)) := by
  obtain ⟨p₁, hfifo, rfl⟩ := Option.map_eq_some_iff.mp hp
  unfold RtPipe.openFifo at hfifo
  split at hfifo
  · rename_i hfirst
    rw [decide_eq_true hfirst]
    obtain ⟨fifo, hcreate, rfl⟩ := Option.map_eq_some_iff.mp hfifo
    cases fifo with
    | none => exact h.given_up (fun rb hrb => nomatch hrb) rfl
    | some rb =>
      obtain ⟨hok, hempty⟩ := create_spec hcreate
      refine h.given_up (fun rb' hrb' => ?_) ((stored_some rfl).trans hempty)
      obtain rfl := Option.some.inj hrb'
      exact hok
  · rename_i hlater
    rw [decide_eq_false hlater]
    obtain rfl := Option.some.inj hfifo
    exact h.kept rfl

omit [DecidableEq Thread] in
theorem closed (h : Inv o) {mode : Accmode} {p : RtPipe}
    (hp : o.pipe.pipeFopsClose mode = some p) : Inv (o.refit p (o.pipe.refCount = 1)) := by
  obtain ⟨p₁, hfifo, rfl⟩ := Option.map_eq_some_iff.mp hp
  unfold RtPipe.closeFifo at hfifo
  split at hfifo
  · rename_i hlast
    rw [decide_eq_true hlast]
    obtain ⟨-, ⟨⟩⟩ := Option.ite_none_right_eq_some.mp hfifo
    exact h.given_up (fun rb hrb => nomatch hrb) rfl
  · rename_i hother
    rw [decide_eq_false hother]
    obtain rfl := Option.some.inj hfifo
    exact h.kept rfl

/-- Bytes go from the buffer to a reader. -/
theorem readTurn (h : Inv o) (t : Thread) {c : ReadCall} {result : RtPipe × ReadTurn}
    (hresult : o.pipe.readTurn c = some result) : Inv (o.afterRead t c result) := by
  unfold RtPipe.readTurn at hresult
  split at hresult
  · obtain rfl := Option.some.inj hresult
    obtain ⟨reading, heq⟩ := afterRead_endOfFile o t c
    rw [heq]
    exact ⟨h.ok, h.order, h.length⟩
  · obtain ⟨rb, hrb, rfl⟩ := Option.map_eq_some_iff.mp hresult
    obtain ⟨reading, heq⟩ := afterRead_eq o t c
      { o.pipe with fifo := some (rb.get (c.count.setWidth 16)).1 }
      (rb.get (c.count.setWidth 16)).2
    rw [heq]
    obtain ⟨hok, hcontents⟩ := get_spec (h.ok rb hrb) (c.count.setWidth 16)
    have hstored := (stored_some hrb).trans hcontents
    refine ⟨fun rb' hrb' => Option.some.inj hrb' ▸ hok, fun hdropped => ?_, ?_⟩
    · have horder := h.order hdropped
      rw [hstored, ← List.append_assoc] at horder
      exact horder
    · have hlen := h.length
      rw [hstored, List.length_append] at hlen
      change o.accepted.length = (o.returned ++ _).length + o.dropped.length +
        (rb.get (c.count.setWidth 16)).1.contents.length
      rw [List.length_append]
      omega

/-- Bytes go from a writer to the buffer. -/
theorem writeTurn (h : Inv o) (t : Thread) {c : WriteCall} {result : RtPipe × Nat × WriteTurn}
    (hresult : o.pipe.writeTurn c = some result) : Inv (o.afterWrite t c result) := by
  unfold RtPipe.writeTurn at hresult
  split at hresult
  · obtain rfl := Option.some.inj hresult
    obtain ⟨writing, heq⟩ :=
      afterWrite_eq o t c o.pipe 0 (if c.ret = 0 then .epipe else .wrote c.ret)
    rw [heq, List.take_zero, List.append_nil]
    exact ⟨h.ok, h.order, h.length⟩
  · obtain ⟨rb, hrb, rfl⟩ := Option.map_eq_some_iff.mp hresult
    obtain ⟨writing, heq⟩ := afterWrite_eq o t c
      { o.pipe with fifo := some (rb.put c.block).1 } (rb.put c.block).2
      (c.turn (rb.put c.block).2)
    rw [heq]
    obtain ⟨hok, hcontents⟩ := put_spec (h.ok rb hrb) c.block
    have hstored := stored_some hrb
    refine ⟨fun rb' hrb' => Option.some.inj hrb' ▸ hok, fun hdropped => ?_, ?_⟩
    · have horder := h.order hdropped
      change o.accepted ++ c.block.bytes.take (rb.put c.block).2 =
        o.returned ++ (rb.put c.block).1.contents
      rw [horder, hstored, hcontents, List.append_assoc]
    · have hlen := h.length
      rw [hstored] at hlen
      change (o.accepted ++ c.block.bytes.take (rb.put c.block).2).length =
        o.returned.length + o.dropped.length + (rb.put c.block).1.contents.length
      rw [hcontents, List.length_append, List.length_append, hlen]
      omega

theorem step {o' : Observed Thread} {e : Event Thread} (h : Inv o)
    (hstep : Pipe.step o e = some o') : Inv o' := by
  cases e with
  | «open» mode pool memory =>
    obtain ⟨p, hp, rfl⟩ := Option.map_eq_some_iff.mp hstep
    exact h.opened hp
  | close mode =>
    obtain ⟨p, hp, rfl⟩ := Option.map_eq_some_iff.mp hstep
    exact h.closed hp
  | read t count nonblock =>
    obtain ⟨-, hstep⟩ := Option.ite_none_right_eq_some.mp hstep
    split at hstep
    · obtain rfl := Option.some.inj hstep
      exact h
    · obtain rfl := Option.some.inj hstep
      exact ⟨h.ok, h.order, h.length⟩
  | readTurn t =>
    obtain ⟨c, -, hturn⟩ := Option.bind_eq_some_iff.mp hstep
    obtain ⟨result, hresult, rfl⟩ := Option.map_eq_some_iff.mp hturn
    exact h.readTurn t hresult
  | write t buf nonblock =>
    obtain ⟨-, hstep⟩ := Option.ite_none_right_eq_some.mp hstep
    split at hstep
    · obtain rfl := Option.some.inj hstep
      exact h
    · obtain rfl := Option.some.inj hstep
      exact ⟨h.ok, h.order, h.length⟩
  | writeTurn t =>
    obtain ⟨c, -, hturn⟩ := Option.bind_eq_some_iff.mp hstep
    obtain ⟨result, hresult, rfl⟩ := Option.map_eq_some_iff.mp hturn
    exact h.writeTurn t hresult

omit [DecidableEq Thread] in
theorem allReturned_iff (h : Inv o) (e : Event Thread) : AllReturned o e ↔ Drained o e := by
  refine imp_congr_right fun _ => ?_
  constructor
  · intro hall
    have hlen := h.length
    rw [hall] at hlen
    exact ⟨List.eq_nil_of_length_eq_zero (by omega), List.eq_nil_of_length_eq_zero (by omega)⟩
  · intro ⟨hempty, hdropped⟩
    rw [h.order hdropped, hempty, List.append_nil]

end Inv

/-! ## Whole runs -/

omit [DecidableEq Thread] in
theorem inv_start (bufsz : Nat) : Inv (start bufsz : Observed Thread) where
  ok _ h := nomatch h
  order _ := rfl
  length := rfl

/-- However the pipe is opened, written, read and closed, every accepted byte has been returned
before a read reports the end of the file exactly if every such read finds the buffer empty, and
no buffer has been given up with bytes in it. -/
theorem returned_along_iff (bufsz : Nat) (es : List (Event Thread)) :
    Along step AllReturned (start bufsz) es ↔ Along step Drained (start bufsz) es :=
  ⟨along_of_along (fun _ _ _ h _ => h.step) (fun _ e h => (h.allReturned_iff e).mp)
      (inv_start bufsz),
    along_of_along (fun _ _ _ h _ => h.step) (fun _ e h => (h.allReturned_iff e).mpr)
      (inv_start bufsz)⟩

/-- A byte is written, the only writer closes, and the reader reads. -/
theorem byte_behind_end_of_file :
    ¬ Along step AllReturned (start 16 : Observed Unit)
      [.open .rdonly (fun _ => 0) true, .open .wronly (fun _ => 0) true, .write () [7] false,
        .writeTurn (), .close .wronly, .read () 1 false] := fun h => by
  obtain ⟨-, h⟩ := h _ rfl
  obtain ⟨-, h⟩ := h _ rfl
  obtain ⟨-, h⟩ := h _ rfl
  obtain ⟨-, h⟩ := h _ rfl
  obtain ⟨-, h⟩ := h _ rfl
  obtain ⟨hall, -⟩ := h _ rfl
  cases hall rfl

end ControlRTT.Drivers.Pipe

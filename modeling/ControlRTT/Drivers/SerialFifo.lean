import ControlRTT.Drivers.RingBuffer

/-! # The receive FIFO of a serial device (serial.c)

An interrupt puts bytes in and threads take them out, between two 16-bit indices. In interrupt
mode one place stays free, and a byte that finds none drops the oldest
(`int_outputs_eq_queue`); in DMA mode the hardware writes on in a circle and `is_full` tells a
full buffer from an empty one (`dma_outputs_eq_queue`). -/
namespace ControlRTT.Drivers.SerialFifo
open ControlRTT.Lib ControlRTT.Lib.CInt ControlRTT.Lib.Mealy
open ControlRTT.Drivers.RingBuffer (u16 slice)
open ControlRTT.Drivers.RingBuffer.RtRingbuffer (slice_eq_contents slice_append_slice)

/-- `struct rt_serial_rx_fifo`, with `config.bufsz`. -/
structure RxFifo where
  bufsz : Nat
  buffer : Nat → Byte
  putIndex : Nat := 0
  getIndex : Nat := 0
  isFull : Bool := false

namespace RxFifo
variable (f : RxFifo)

/-- `i += 1; if (i >= bufsz) i = 0` -/
def next (i : Nat) : Nat := if u16 (i + 1) ≥ f.bufsz then 0 else u16 (i + 1)

/-- What `rt_hw_serial_isr` does with a character, interrupts disabled. -/
def storeChar (ch : Byte) : RxFifo :=
  let f := { f with
    buffer := Function.update f.buffer f.putIndex ch
    putIndex := f.next f.putIndex }
  if f.putIndex = f.getIndex then
    { f with getIndex := f.next f.getIndex, isFull := true }
  else f

/-- A turn of the loop in `_serial_int_rx`, interrupts disabled; `none` if there is no data. -/
def takeChar : Option (RxFifo × Byte) :=
  if f.getIndex = f.putIndex ∧ f.isFull = false then none
  else some ({ f with getIndex := f.next f.getIndex, isFull := false }, f.buffer f.getIndex)

def serialFifoCalcRecvedLen : Nat :=
  if f.putIndex = f.getIndex then if f.isFull = false then 0 else f.bufsz
  else if f.putIndex > f.getIndex then f.putIndex - f.getIndex
  else f.bufsz - (f.getIndex - f.putIndex)

/-- The length for `rx_indicate` behind `RT_SERIAL_EVENT_RX_IND`. -/
def rxLength : Nat :=
  if f.putIndex ≥ f.getIndex then f.putIndex - f.getIndex
  else f.bufsz - (f.getIndex - f.putIndex)

/-- `none` is the assertion. -/
def rtDmaRecvUpdateGetIndex (len : Nat) : Option RxFifo :=
  if len ≤ f.serialFifoCalcRecvedLen then
    let getIndex := u16 (f.getIndex + len)
    some { f with
      isFull := if f.isFull ∧ len ≠ 0 then false else f.isFull
      getIndex := if getIndex ≥ f.bufsz then getIndex % f.bufsz else getIndex }
  else none

def rtDmaRecvUpdatePutIndex (len : Nat) : RxFifo :=
  let putIndex := u16 (f.putIndex + len)
  let f :=
    if f.getIndex ≤ f.putIndex then
      if putIndex ≥ f.bufsz then
        { f with
          putIndex := putIndex % f.bufsz
          isFull := if putIndex % f.bufsz ≥ f.getIndex then true else f.isFull }
      else { f with putIndex := putIndex }
    else if putIndex ≥ f.getIndex then
      { f with
        putIndex := if putIndex ≥ f.bufsz then putIndex % f.bufsz else putIndex
        isFull := true }
    else { f with putIndex := putIndex }
  let f := if f.isFull then { f with getIndex := f.putIndex } else f
  if f.getIndex ≥ f.bufsz then { f with getIndex := 0 } else f

/-- `_serial_dma_rx` with a buffer; the length is compared as an unsigned number. -/
def serialDmaRx (length : BitVec 32) : Option (RxFifo × List Byte) :=
  let recvedLen := f.serialFifoCalcRecvedLen
  let recvLen := if length.toNat < recvedLen then length.toNat else recvedLen
  let data :=
    if f.getIndex + recvLen < f.bufsz then slice f.buffer f.getIndex recvLen
    else slice f.buffer f.getIndex (f.bufsz - f.getIndex) ++
      slice f.buffer 0 (recvLen + f.getIndex - f.bufsz)
  (f.rtDmaRecvUpdateGetIndex recvLen).map fun f => (f, data)

end RxFifo

/-! ## The bytes in the FIFO -/

/-- The FIFO holds these bytes. -/
structure Holds (f : RxFifo) (items : List Byte) : Prop where
  get_lt : f.getIndex < f.bufsz
  size_lt : f.bufsz < 2 ^ 16
  length_le : items.length ≤ f.bufsz
  put_eq : f.putIndex = (f.getIndex + items.length) % f.bufsz
  items_eq : Ring.contents f.buffer f.bufsz f.getIndex items.length = items

section
variable {f : RxFifo} {items : List Byte} {i : Nat}

theorem next_eq (hi : i < f.bufsz) (hsize : f.bufsz < 2 ^ 16) : f.next i = (i + 1) % f.bufsz := by
  have hu : u16 (i + 1) = i + 1 := Nat.mod_eq_of_lt (by omega)
  rw [RxFifo.next, hu, Ring.next_eq hi]

theorem Holds.put_cases (h : Holds f items) :
    f.putIndex = f.getIndex + items.length ∧ f.getIndex + items.length < f.bufsz ∨
      f.putIndex + f.bufsz = f.getIndex + items.length := by
  have := h.get_lt
  have := h.length_le
  have hput := h.put_eq
  rw [Ring.mod_eq_ite (by omega)] at hput
  split at hput <;> omega

/-- The length is right if `is_full` tells full from empty. -/
theorem Holds.recvedLen (h : Holds f items) (hall : items.length = f.bufsz → f.isFull = true)
    (hsome : f.isFull = true → items ≠ []) : f.serialFifoCalcRecvedLen = items.length := by
  have hget := h.get_lt
  have hle := h.length_le
  have hput := h.put_cases
  unfold RxFifo.serialFifoCalcRecvedLen
  by_cases heq : f.putIndex = f.getIndex
  · rw [if_pos heq]
    cases hfull : f.isFull with
    | true =>
      have hpos := List.length_pos_of_ne_nil (hsome hfull)
      rw [if_neg (by decide)]
      omega
    | false =>
      have hne : items.length ≠ f.bufsz := fun hlen => by
        rw [hall hlen] at hfull
        cases hfull
      rw [if_pos rfl]
      omega
  · rw [if_neg heq]
    split <;> omega

/-- While a place is free, `is_full` need not be asked. -/
theorem Holds.rxLength (h : Holds f items) (hlt : items.length < f.bufsz) :
    f.rxLength = items.length := by
  have hget := h.get_lt
  have hput := h.put_cases
  unfold RxFifo.rxLength
  split <;> omega

theorem Holds.buffer_get {b : Byte} {rest : List Byte} (h : Holds f (b :: rest)) :
    f.buffer f.getIndex = b ∧
      Ring.contents f.buffer f.bufsz ((f.getIndex + 1) % f.bufsz) rest.length = rest := by
  have hitems := h.items_eq
  rw [List.length_cons, Ring.contents_pop, Nat.mod_eq_of_lt h.get_lt] at hitems
  exact List.cons.inj hitems

end

/-! ## Interrupt mode -/

/-- A call of `_serial_int_rx`: what it has still to read, and what it has got. -/
structure ReadCall where
  left : Nat
  data : List Byte := []

inductive IntEvent (Thread : Type) where
  | store (ch : Byte)
  | indicate
  | recvedLen
  | read (t : Thread) (length : BitVec 32)
  | turn (t : Thread)

/-- What an event makes known: a length, or what a read returns. -/
inductive Answer where
  | nothing
  | length (n : Nat)
  | data (bytes : List Byte)
  deriving DecidableEq, Repr

/-- `rx_indicate` is called with a length that is not zero. -/
def Answer.indicated (n : Nat) : Answer := if n = 0 then .nothing else .length n

/-- What the interrupt and the readers use: the FIFO, or the queue that it stands for. -/
structure Source (σ : Type) where
  storeChar : σ → Byte → σ
  takeChar : σ → Option (σ × Byte)
  recvedLen : σ → Nat
  rxLength : σ → Nat

section
variable {σ Thread : Type} [DecidableEq Thread] (src : Source σ)

/-- A turn of a read: its loop ends when it has read enough or finds no data. -/
def readTurn (s : σ) (c : ReadCall) : σ × (ReadCall ⊕ List Byte) :=
  if c.left = 0 then (s, .inr c.data)
  else
    match src.takeChar s with
    | none => (s, .inr c.data)
    | some (s, b) => (s, .inl { left := c.left - 1, data := c.data ++ [b] })

/-- The critical sections of the interrupt and of the reads of any threads, in any order. -/
def intStep (s : σ × (Thread → Option ReadCall)) :
    IntEvent Thread → (σ × (Thread → Option ReadCall)) × Answer
  | .store ch => ((src.storeChar s.1 ch, s.2), .nothing)
  | .indicate => (s, .indicated (src.rxLength s.1))
  | .recvedLen => (s, .length (src.recvedLen s.1))
  | .read t length =>
    match s.2 t with
    | some _ => (s, .nothing)
    | none => ((s.1, Function.update s.2 t (some { left := length.toNat })), .nothing)
  | .turn t =>
    match s.2 t with
    | none => (s, .nothing)
    | some c =>
      match readTurn src s.1 c with
      | (s', .inl c) => ((s', Function.update s.2 t (some c)), .nothing)
      | (s', .inr data) => ((s', Function.update s.2 t none), .data data)

end

def fifoSource : Source RxFifo where
  storeChar := RxFifo.storeChar
  takeChar := RxFifo.takeChar
  recvedLen := RxFifo.serialFifoCalcRecvedLen
  rxLength := RxFifo.rxLength

/-- A queue of the newest bytes, as many as there is room for. -/
def queueSource (capacity : Nat) : Source (BoundedQueue Byte capacity) where
  storeChar q ch := q.force [ch]
  takeChar q := q.items.head?.map fun b => (q.drop 1, b)
  recvedLen q := q.items.length
  rxLength q := q.items.length

/-- The FIFO in interrupt mode: `is_full` is set only while just one place is free. -/
structure IntHolds (f : RxFifo) (items : List Byte) : Prop extends Holds f items where
  two_le : 2 ≤ f.bufsz
  lt_bufsz : items.length < f.bufsz
  full : f.isFull = true → items.length + 1 = f.bufsz

section
variable {f : RxFifo} {items : List Byte}

theorem IntHolds.recvedLen (h : IntHolds f items) :
    f.serialFifoCalcRecvedLen = items.length := by
  have hlt := h.lt_bufsz
  refine h.toHolds.recvedLen (fun hall => by omega) fun hfull hnil => ?_
  have hfull := h.full hfull
  have htwo := h.two_le
  rw [hnil, List.length_nil] at hfull
  omega

theorem IntHolds.takeChar (h : IntHolds f items) :
    (items = [] ∧ f.takeChar = none) ∨
    ∃ b rest f', items = b :: rest ∧ f.takeChar = some (f', b) ∧ f'.bufsz = f.bufsz ∧
      IntHolds f' rest := by
  have htwo := h.two_le
  have hput := h.put_eq
  cases items with
  | nil =>
    refine .inl ⟨rfl, if_pos ⟨?_, ?_⟩⟩
    · rw [hput, List.length_nil, Nat.add_zero, Nat.mod_eq_of_lt h.get_lt]
    · rw [← Bool.not_eq_true]
      intro hfull
      have := h.full hfull
      rw [List.length_nil] at this
      omega
  | cons b rest =>
    obtain ⟨hb, hrest⟩ := h.buffer_get
    have hlt := h.lt_bufsz
    rw [List.length_cons] at hput hlt
    have hne : f.getIndex ≠ f.putIndex := by
      have hpos : (f.getIndex + 0) % f.bufsz ≠ (f.getIndex + (rest.length + 1)) % f.bufsz :=
        Ring.position_ne (Nat.succ_pos _) hlt
      rwa [Nat.add_zero, Nat.mod_eq_of_lt h.get_lt, ← hput] at hpos
    refine .inr ⟨b, rest, { f with getIndex := (f.getIndex + 1) % f.bufsz, isFull := false }, rfl,
      (if_neg fun hand => hne hand.1).trans ?_, rfl, ?_⟩
    · rw [next_eq h.get_lt h.size_lt, hb]
    · refine ⟨⟨Nat.mod_lt _ (by omega), h.size_lt, by dsimp only; omega, ?_, hrest⟩, htwo,
        by dsimp only; omega, nofun⟩
      change f.putIndex = _
      rw [hput, Nat.mod_add_mod]
      exact congrArg (· % f.bufsz) (by omega)

theorem IntHolds.storeChar (h : IntHolds f items) (ch : Byte) :
    (f.storeChar ch).bufsz = f.bufsz ∧
      IntHolds (f.storeChar ch) ((items ++ [ch]).drop (items.length + 1 - (f.bufsz - 1))) := by
  have htwo := h.two_le
  have hlt := h.lt_bufsz
  have hsize := h.size_lt
  have hget := h.get_lt
  have hput := h.put_eq
  have hput_lt : f.putIndex < f.bufsz := hput ▸ Nat.mod_lt _ (by omega)
  have hpush : Ring.contents (Function.update f.buffer f.putIndex ch) f.bufsz f.getIndex
      (items.length + 1) = items ++ [ch] := by
    rw [hput, Ring.contents_push _ _ _ hlt, h.items_eq]
  have hnext : f.next f.putIndex = (f.getIndex + (items.length + 1)) % f.bufsz := by
    rw [next_eq hput_lt hsize, hput, Nat.mod_add_mod, Nat.add_assoc]
  by_cases hlast : items.length + 1 = f.bufsz
  · -- the byte takes the last free place, and the oldest leaves
    have heq : f.next f.putIndex = f.getIndex := by
      rw [hnext, hlast, Nat.add_mod_right, Nat.mod_eq_of_lt hget]
    have hstore : f.storeChar ch = { f with
        buffer := Function.update f.buffer f.putIndex ch
        putIndex := f.getIndex
        getIndex := (f.getIndex + 1) % f.bufsz
        isFull := true } := by
      unfold RxFifo.storeChar
      rw [if_pos heq, ← next_eq hget hsize]
      dsimp only
      rw [heq]
      rfl
    rw [hstore]
    have hcut : items.length + 1 - (f.bufsz - 1) = 1 := by omega
    rw [hcut]
    refine ⟨rfl, ⟨Nat.mod_lt _ (by omega), hsize, ?_, ?_, ?_⟩, htwo, ?_, fun _ => ?_⟩
    · simp only [List.length_drop, List.length_append, List.length_singleton]
      omega
    · simp only [List.length_drop, List.length_append, List.length_singleton,
        Nat.add_sub_cancel, Nat.mod_add_mod]
      have hround : f.getIndex + 1 + items.length = f.getIndex + f.bufsz := by omega
      rw [hround, Nat.add_mod_right, Nat.mod_eq_of_lt hget]
    · simp only [List.length_drop, List.length_append, List.length_singleton,
        Nat.add_sub_cancel]
      rw [← hpush, Ring.contents_pop]
      rfl
    · simp only [List.length_drop, List.length_append, List.length_singleton]
      omega
    · simp only [List.length_drop, List.length_append, List.length_singleton]
      omega
  · have hne : f.next f.putIndex ≠ f.getIndex := by
      have hpos : (f.getIndex + 0) % f.bufsz ≠ (f.getIndex + (items.length + 1)) % f.bufsz :=
        Ring.position_ne (Nat.succ_pos _) (by omega)
      rw [Nat.add_zero, Nat.mod_eq_of_lt hget, ← hnext] at hpos
      exact hpos.symm
    have hstore : f.storeChar ch = { f with
        buffer := Function.update f.buffer f.putIndex ch
        putIndex := f.next f.putIndex } := if_neg hne
    rw [hstore]
    have hcut : items.length + 1 - (f.bufsz - 1) = 0 := by omega
    rw [hcut, List.drop_zero]
    refine ⟨rfl, ⟨hget, hsize, ?_, ?_, ?_⟩, htwo, ?_, fun hfull => ?_⟩
    · simp only [List.length_append, List.length_singleton]
      omega
    · rw [List.length_append, List.length_singleton]
      exact hnext
    · rw [List.length_append, List.length_singleton]
      exact hpush
    · simp only [List.length_append, List.length_singleton]
      omega
    · exact absurd (h.full hfull) hlast

end

/-- The FIFO in interrupt mode stands for the queue. -/
structure IntRefines {capacity : Nat} (f : RxFifo) (q : BoundedQueue Byte capacity) : Prop where
  size : f.bufsz = capacity + 1
  holds : IntHolds f q.items

section
variable {Thread : Type} [DecidableEq Thread] {capacity : Nat} {f : RxFifo}
  {q : BoundedQueue Byte capacity}

theorem IntRefines.storeChar (h : IntRefines f q) (ch : Byte) :
    IntRefines (f.storeChar ch) (q.force [ch]) := by
  obtain ⟨hsize, hholds⟩ := h.holds.storeChar ch
  refine ⟨hsize.trans h.size, ?_⟩
  rw [BoundedQueue.items_force, List.length_append, List.length_singleton]
  rwa [h.size, Nat.add_sub_cancel] at hholds

/-- A turn of a read is a turn of the read from the queue. -/
theorem IntRefines.readTurn (h : IntRefines f q) (c : ReadCall) :
    IntRefines (readTurn fifoSource f c).1 (readTurn (queueSource capacity) q c).1 ∧
      (readTurn fifoSource f c).2 = (readTurn (queueSource capacity) q c).2 := by
  unfold SerialFifo.readTurn
  by_cases hleft : c.left = 0
  · rw [if_pos hleft, if_pos hleft]
    exact ⟨h, rfl⟩
  · rw [if_neg hleft, if_neg hleft]
    dsimp only [fifoSource, queueSource]
    rcases h.holds.takeChar with ⟨hnil, htake⟩ | ⟨b, rest, f', hcons, htake, hsize, hrest⟩
    · rw [htake, hnil]
      exact ⟨h, rfl⟩
    · rw [htake, hcons]
      refine ⟨⟨hsize.trans h.size, ?_⟩, rfl⟩
      change IntHolds f' (q.items.drop 1)
      rw [hcons]
      exact hrest

theorem IntRefines.intStep (h : IntRefines f q) (calls : Thread → Option ReadCall)
    (e : IntEvent Thread) :
    (IntRefines (intStep fifoSource (f, calls) e).1.1
        (intStep (queueSource capacity) (q, calls) e).1.1 ∧
      (intStep fifoSource (f, calls) e).1.2 = (intStep (queueSource capacity) (q, calls) e).1.2) ∧
    (intStep fifoSource (f, calls) e).2 = (intStep (queueSource capacity) (q, calls) e).2 := by
  cases e with
  | store ch => exact ⟨⟨h.storeChar ch, rfl⟩, rfl⟩
  | indicate =>
    exact ⟨⟨h, rfl⟩, congrArg Answer.indicated (h.holds.toHolds.rxLength h.holds.lt_bufsz)⟩
  | recvedLen => exact ⟨⟨h, rfl⟩, congrArg Answer.length h.holds.recvedLen⟩
  | read t length =>
    dsimp only [SerialFifo.intStep]
    split <;> exact ⟨⟨h, rfl⟩, rfl⟩
  | turn t =>
    dsimp only [SerialFifo.intStep]
    cases calls t with
    | none => exact ⟨⟨h, rfl⟩, rfl⟩
    | some c =>
      obtain ⟨hnext, hsame⟩ := h.readTurn c
      dsimp only
      generalize SerialFifo.readTurn fifoSource f c = x at hnext hsame
      generalize SerialFifo.readTurn (queueSource capacity) q c = y at hnext hsame
      obtain ⟨f', r⟩ := x
      obtain ⟨q', r'⟩ := y
      obtain rfl : r = r' := hsame
      cases r <;> exact ⟨⟨hnext, rfl⟩, rfl⟩

end

/-- In interrupt mode the FIFO is a queue of the newest bytes, as many as there is room for but
one. -/
theorem int_outputs_eq_queue {Thread : Type} [DecidableEq Thread] (buffer : Nat → Byte)
    (bufsz : BitVec 16) (hmin : 2 ≤ bufsz.toNat) (es : List (IntEvent Thread)) :
    outputs (intStep fifoSource) ({ bufsz := bufsz.toNat, buffer := buffer }, fun _ => none) es =
      outputs (intStep (queueSource (bufsz.toNat - 1))) (BoundedQueue.empty, fun _ => none) es := by
  have hstart : IntRefines { bufsz := bufsz.toNat, buffer := buffer }
      (BoundedQueue.empty : BoundedQueue Byte (bufsz.toNat - 1)) := by
    refine ⟨by dsimp only; omega, ⟨⟨?_, bufsz.isLt, Nat.zero_le _, ?_, rfl⟩, hmin, ?_, nofun⟩⟩
    · exact Nat.lt_of_lt_of_le Nat.zero_lt_two hmin
    · exact (Nat.zero_mod _).symm
    · exact Nat.lt_of_lt_of_le Nat.zero_lt_two hmin
  refine outputs_eq_of_simulation _ (R := fun s t => IntRefines s.1 t.1 ∧ s.2 = t.2) ?_
    ⟨hstart, rfl⟩ es
  rintro ⟨f, calls⟩ ⟨q, calls'⟩ e ⟨hrefines, hcalls⟩
  obtain rfl : calls = calls' := hcalls
  exact hrefines.intStep calls e

/-- Three bytes for a FIFO of three: the first is dropped. -/
theorem int_outputs_eq_queue_three :
    outputs (intStep fifoSource) ({ bufsz := 3, buffer := fun _ => 0 }, fun _ => none)
      [.store 1, .store 2, .store 3, .indicate, .read () 1, .turn (), .turn ()] =
    outputs (intStep (queueSource 2)) (BoundedQueue.empty, fun _ => none)
      [.store 1, .store 2, .store 3, .indicate, .read () 1, .turn (), .turn ()] :=
  int_outputs_eq_queue (fun _ => 0) 3 (by decide) _

/-! ## DMA mode -/

/-- The DMA writes on from its position, in a circle. -/
def dmaWrite (bufsz : Nat) (buffer : Nat → Byte) (pos : Nat) : List Byte → (Nat → Byte) × Nat
  | [] => (buffer, pos)
  | b :: bytes =>
    dmaWrite bufsz (Function.update buffer pos b) ((pos + 1) % bufsz) bytes

/-- The FIFO and the position of the DMA. -/
structure DmaRx where
  fifo : RxFifo
  pos : Nat := 0

/-- What the DMA has received by its interrupt. -/
structure DmaBlock (bufsz : Nat) where
  bytes : List Byte
  length_le : bytes.length ≤ bufsz

inductive DmaEvent (bufsz : Nat) where
  | done (block : DmaBlock bufsz)
  | read (length : BitVec 32)

/-- `RT_SERIAL_EVENT_RX_DMADONE` and a read, interrupts disabled; `none` is an assertion that
fails. -/
def dmaStep {bufsz : Nat} (s : DmaRx) : DmaEvent bufsz → DmaRx × Option Answer
  | .done block =>
    let (buffer, pos) := dmaWrite s.fifo.bufsz s.fifo.buffer s.pos block.bytes
    let fifo := { s.fifo with buffer := buffer }.rtDmaRecvUpdatePutIndex block.bytes.length
    ({ fifo := fifo, pos := pos }, some (.length fifo.serialFifoCalcRecvedLen))
  | .read length =>
    match s.fifo.serialDmaRx length with
    | none => (s, none)
    | some (fifo, data) => ({ s with fifo := fifo }, some (.data data))

/-- A queue of the newest bytes; a completion reports how many there are. -/
def dmaQueueStep {bufsz : Nat} (q : BoundedQueue Byte bufsz) :
    DmaEvent bufsz → BoundedQueue Byte bufsz × Option Answer
  | .done block => (q.force block.bytes, some (.length (q.force block.bytes).items.length))
  | .read length => (q.drop length.toNat, some (.data (q.items.take length.toNat)))

/-- What the DMA has written behind the bytes in the buffer is in the buffer, as far as it
reaches. -/
theorem dmaWrite_contents {size out : Nat} (buffer : Nat → Byte) {items : List Byte}
    (hout : out < size) (hle : items.length ≤ size)
    (hitems : Ring.contents buffer size out items.length = items) (bytes : List Byte) :
    let r := dmaWrite size buffer ((out + items.length) % size) bytes
    r.2 = (out + items.length + bytes.length) % size ∧
      Ring.contents r.1 size ((out + (items.length + bytes.length - size)) % size)
        (min size (items.length + bytes.length)) =
      (items ++ bytes).drop (items.length + bytes.length - size) := by
  induction bytes generalizing buffer out items with
  | nil =>
    have hcut : items.length + ([] : List Byte).length - size = 0 := by
      rw [List.length_nil]
      omega
    dsimp only [dmaWrite]
    rw [hcut, Nat.add_zero, Nat.mod_eq_of_lt hout, List.length_nil, Nat.add_zero, Nat.add_zero,
      Nat.min_eq_right hle, List.append_nil, List.drop_zero]
    exact ⟨rfl, hitems⟩
  | cons b bytes ih =>
    dsimp only [dmaWrite]
    rw [Nat.mod_add_mod, List.length_cons]
    rcases Nat.lt_or_eq_of_le hle with hlt | heq
    · have hpush := Ring.contents_push buffer out b hlt
      rw [hitems] at hpush
      have hlen : (items ++ [b]).length = items.length + 1 := by simp
      have hnew : Ring.contents (Function.update buffer ((out + items.length) % size) b) size out
          (items ++ [b]).length = items ++ [b] := by rw [hlen, hpush]
      have hstep := ih _ hout (by omega) hnew
      rw [hlen, ← Nat.add_assoc out, List.append_assoc, List.singleton_append] at hstep
      rw [show items.length + (bytes.length + 1) = items.length + 1 + bytes.length by omega,
        show out + items.length + (bytes.length + 1) = out + items.length + 1 + bytes.length by
          omega]
      exact hstep
    · -- the buffer is full: the byte takes the place of the oldest
      obtain ⟨a, rest, rfl⟩ : ∃ a rest, items = a :: rest :=
        List.exists_cons_of_length_pos (by omega)
      have hpush := Ring.contents_overwrite buffer out b (by omega : 0 < size)
      rw [heq] at hitems
      rw [hitems, List.tail_cons] at hpush
      have hpos : (out + (a :: rest).length) % size = out % size := by
        rw [heq, Nat.add_mod_right]
      have hlen : (rest ++ [b]).length = size := by
        rw [List.length_append, List.length_singleton, ← heq, List.length_cons]
      have hnew : Ring.contents (Function.update buffer (out % size) b) size ((out + 1) % size)
          (rest ++ [b]).length = rest ++ [b] := by rw [hlen, hpush]
      have hstep := ih _ (Nat.mod_lt _ (by omega)) hlen.le hnew
      have hnext : ((out + 1) % size + (rest ++ [b]).length) % size = (out + size + 1) % size := by
        rw [hlen, Nat.mod_add_mod]
        exact congrArg (· % size) (by omega)
      rw [hnext, hlen, Nat.add_sub_cancel_left, List.append_assoc, List.singleton_append]
        at hstep
      rw [hpos, heq, Nat.add_sub_cancel_left, List.cons_append, List.drop_succ_cons]
      refine ⟨?_, ?_⟩
      · rw [hstep.1, Nat.add_assoc ((out + 1) % size), Nat.mod_add_mod]
        exact congrArg (· % size) (by omega)
      · have hmin : min size (size + (bytes.length + 1)) = min size (size + bytes.length) := by
          omega
        have hout' : (out + (bytes.length + 1)) % size =
            ((out + 1) % size + bytes.length) % size := by
          rw [Nat.mod_add_mod]
          exact congrArg (· % size) (by omega)
        rw [hmin, hout', hstep.2]

/-- The FIFO in DMA mode: `is_full` is set exactly if no place is free. -/
structure DmaHolds (f : RxFifo) (items : List Byte) : Prop extends Holds f items where
  full_iff : f.isFull = true ↔ items.length = f.bufsz
  bufsz_le : f.bufsz ≤ 32767

section
variable {f : RxFifo} {items : List Byte} {len : Nat}

theorem DmaHolds.recvedLen (h : DmaHolds f items) :
    f.serialFifoCalcRecvedLen = items.length := by
  have hget := h.get_lt
  refine h.toHolds.recvedLen h.full_iff.mpr fun hfull hnil => ?_
  have hlen := h.full_iff.mp hfull
  rw [hnil, List.length_nil] at hlen
  omega

/-- While there is room, only the put index moves. -/
theorem DmaHolds.updatePutIndex_fit (h : DmaHolds f items) (hroom : items.length + len < f.bufsz) :
    f.rtDmaRecvUpdatePutIndex len = { f with putIndex := (f.putIndex + len) % f.bufsz } := by
  have hget := h.get_lt
  have hsize := h.bufsz_le
  have hput := h.put_cases
  have hput_lt : f.putIndex < f.bufsz := h.put_eq ▸ Nat.mod_lt _ (by omega)
  have hu : u16 (f.putIndex + len) = f.putIndex + len := Nat.mod_eq_of_lt (by omega)
  have hfull : f.isFull = false := by
    rw [← Bool.not_eq_true, h.full_iff]
    omega
  have hget' : ¬f.getIndex ≥ f.bufsz := by omega
  unfold RxFifo.rtDmaRecvUpdatePutIndex
  rw [hu]
  by_cases hle : f.getIndex ≤ f.putIndex
  · by_cases hend : f.putIndex + len ≥ f.bufsz
    · have hbehind : ¬(f.putIndex + len) % f.bufsz ≥ f.getIndex := by
        rw [Nat.mod_eq_sub_mod hend, Nat.mod_eq_of_lt (by omega)]
        omega
      simp only [if_pos hle, if_pos hend, if_neg hbehind, hfull, Bool.false_eq_true, if_false,
        if_neg hget']
    · have hmod : (f.putIndex + len) % f.bufsz = f.putIndex + len := Nat.mod_eq_of_lt (by omega)
      simp only [if_pos hle, if_neg hend, hfull, Bool.false_eq_true, if_false, if_neg hget', hmod]
  · have hbehind : ¬f.putIndex + len ≥ f.getIndex := by omega
    have hmod : (f.putIndex + len) % f.bufsz = f.putIndex + len := Nat.mod_eq_of_lt (by omega)
    simp only [if_neg hle, if_neg hbehind, hfull, Bool.false_eq_true, if_false, if_neg hget', hmod]

/-- Else the get index follows it. -/
theorem DmaHolds.updatePutIndex_over (h : DmaHolds f items) (hlen : len ≤ f.bufsz)
    (hover : f.bufsz ≤ items.length + len) :
    f.rtDmaRecvUpdatePutIndex len = { f with
      putIndex := (f.putIndex + len) % f.bufsz
      getIndex := (f.putIndex + len) % f.bufsz
      isFull := true } := by
  have hget := h.get_lt
  have hitems := h.length_le
  have hsize := h.bufsz_le
  have hput := h.put_cases
  have hput_lt : f.putIndex < f.bufsz := h.put_eq ▸ Nat.mod_lt _ (by omega)
  have hu : u16 (f.putIndex + len) = f.putIndex + len := Nat.mod_eq_of_lt (by omega)
  have hput_lt' : ¬(f.putIndex + len) % f.bufsz ≥ f.bufsz :=
    Nat.not_le_of_lt (Nat.mod_lt _ (by omega))
  unfold RxFifo.rtDmaRecvUpdatePutIndex
  rw [hu]
  by_cases hle : f.getIndex ≤ f.putIndex
  · by_cases hend : f.putIndex + len ≥ f.bufsz
    · have hforce : (if (f.putIndex + len) % f.bufsz ≥ f.getIndex then true else f.isFull) =
          true := by
        by_cases hfull : f.isFull = true
        · rw [hfull, ite_self]
        · have := mt h.full_iff.mpr hfull
          rw [Nat.mod_eq_sub_mod hend, Nat.mod_eq_of_lt (by omega), if_pos (by omega)]
      simp only [if_pos hle, if_pos hend, hforce, if_true, if_neg hput_lt']
    · -- the buffer was full, and stays so
      have hfull : f.isFull = true := h.full_iff.mpr (by omega)
      have hmod : (f.putIndex + len) % f.bufsz = f.putIndex + len := Nat.mod_eq_of_lt (by omega)
      simp only [if_pos hle, if_neg hend, hfull, if_true, hmod]
  · have hforce : f.putIndex + len ≥ f.getIndex := by omega
    have hmod : (if f.putIndex + len ≥ f.bufsz then (f.putIndex + len) % f.bufsz
        else f.putIndex + len) = (f.putIndex + len) % f.bufsz := by
      split
      · rfl
      · exact (Nat.mod_eq_of_lt (by omega)).symm
    simp only [if_neg hle, if_pos hforce, hmod, if_true, if_neg hput_lt']

theorem updatePutIndex_buffer (f : RxFifo) (buffer : Nat → Byte) (len : Nat) :
    { f with buffer := buffer }.rtDmaRecvUpdatePutIndex len =
      { f.rtDmaRecvUpdatePutIndex len with buffer := buffer } := by
  unfold RxFifo.rtDmaRecvUpdatePutIndex
  dsimp only
  split_ifs <;> rfl

/-- After a completion the FIFO holds the newest bytes, and the put index is the position of the
DMA. -/
theorem DmaHolds.done (h : DmaHolds f items) {bytes : List Byte} (hlen : bytes.length ≤ f.bufsz) :
    let r := dmaWrite f.bufsz f.buffer f.putIndex bytes
    let f' := { f with buffer := r.1 }.rtDmaRecvUpdatePutIndex bytes.length
    f'.bufsz = f.bufsz ∧ f'.putIndex = r.2 ∧
      DmaHolds f' ((items ++ bytes).drop ((items ++ bytes).length - f.bufsz)) := by
  have hget := h.get_lt
  have hle := h.length_le
  obtain ⟨hpos, hcontents⟩ := dmaWrite_contents f.buffer hget hle h.items_eq bytes
  rw [← h.put_eq] at hpos hcontents
  have hput : (f.putIndex + bytes.length) % f.bufsz =
      (f.getIndex + items.length + bytes.length) % f.bufsz := by
    rw [h.put_eq, Nat.mod_add_mod]
  dsimp only
  rw [updatePutIndex_buffer, List.length_append]
  rcases Nat.lt_or_ge (items.length + bytes.length) f.bufsz with hroom | hover
  · have hcut : items.length + bytes.length - f.bufsz = 0 := by omega
    rw [hcut, Nat.add_zero, Nat.mod_eq_of_lt hget, Nat.min_eq_right hroom.le, List.drop_zero]
      at hcontents
    rw [h.updatePutIndex_fit hroom, hcut, List.drop_zero]
    refine ⟨rfl, hput.trans hpos.symm, ⟨⟨hget, h.size_lt, ?_, ?_, ?_⟩, ?_, h.bufsz_le⟩⟩
    · rw [List.length_append]
      exact hroom.le
    · rw [List.length_append, ← Nat.add_assoc]
      exact hput
    · rw [List.length_append]
      exact hcontents
    · rw [List.length_append, h.full_iff]
      dsimp only
      omega
  · have hlen' : ((items ++ bytes).drop (items.length + bytes.length - f.bufsz)).length =
        f.bufsz := by
      rw [List.length_drop, List.length_append]
      omega
    rw [Nat.min_eq_left hover] at hcontents
    rw [h.updatePutIndex_over hlen hover]
    have hout : (f.getIndex + (items.length + bytes.length - f.bufsz)) % f.bufsz =
        (f.putIndex + bytes.length) % f.bufsz := by
      rw [hput, ← Nat.add_mod_right]
      exact congrArg (· % f.bufsz) (by omega)
    refine ⟨rfl, hput.trans hpos.symm,
      ⟨⟨Nat.mod_lt _ (by omega), h.size_lt, hlen'.le, ?_, ?_⟩, ?_, h.bufsz_le⟩⟩
    · rw [hlen', Nat.add_mod_right, Nat.mod_mod]
    · rw [hlen']
      dsimp only
      rw [← hout]
      exact hcontents
    · rw [hlen']
      exact iff_of_true rfl rfl

/-- The two parts that a read copies are the oldest bytes. -/
theorem Holds.slices (h : Holds f items) {n : Nat} (hn : n ≤ items.length) :
    (if f.getIndex + n < f.bufsz then slice f.buffer f.getIndex n
      else slice f.buffer f.getIndex (f.bufsz - f.getIndex) ++
        slice f.buffer 0 (n + f.getIndex - f.bufsz)) = items.take n := by
  have hget := h.get_lt
  have hle := h.length_le
  have hall := h.items_eq
  have htake : Ring.contents f.buffer f.bufsz f.getIndex n = items.take n := by
    rw [← Nat.add_sub_cancel' hn, Ring.contents_add] at hall
    rw [← hall, List.take_left' (Ring.length_contents _ _ _ _)]
  rw [← htake]
  split
  · exact slice_eq_contents _ (by omega)
  · have hrest : n + f.getIndex - f.bufsz = n - (f.bufsz - f.getIndex) := by omega
    rw [hrest]
    exact slice_append_slice _ hget (by omega) (hn.trans hle)

/-- A read takes the oldest bytes, as many as it asks for or as there are. -/
theorem DmaHolds.serialDmaRx (h : DmaHolds f items) (length : BitVec 32) :
    ∃ f', f.serialDmaRx length = some (f', items.take length.toNat) ∧ f'.bufsz = f.bufsz ∧
      f'.putIndex = f.putIndex ∧ DmaHolds f' (items.drop length.toNat) := by
  have hget := h.get_lt
  have hle := h.length_le
  have hsize := h.bufsz_le
  have hmin : (if length.toNat < items.length then length.toNat else items.length) =
      min length.toNat items.length := by
    split <;> omega
  have hrecv := Nat.min_le_right length.toNat items.length
  have hu : u16 (f.getIndex + min length.toNat items.length) =
      f.getIndex + min length.toNat items.length := Nat.mod_eq_of_lt (by omega)
  have hmod : (if f.getIndex + min length.toNat items.length ≥ f.bufsz then
      (f.getIndex + min length.toNat items.length) % f.bufsz
      else f.getIndex + min length.toNat items.length) =
      (f.getIndex + min length.toNat items.length) % f.bufsz := by
    split
    · rfl
    · exact (Nat.mod_eq_of_lt (by omega)).symm
  refine ⟨{ f with
    isFull := if f.isFull ∧ min length.toNat items.length ≠ 0 then false else f.isFull
    getIndex := (f.getIndex + min length.toNat items.length) % f.bufsz }, ?_, rfl, rfl, ?_⟩
  · have htake : items.take length.toNat = items.take (min length.toNat items.length) := by
      rw [← List.take_take, List.take_length]
    unfold RxFifo.serialDmaRx RxFifo.rtDmaRecvUpdateGetIndex
    dsimp only
    rw [h.recvedLen, hmin, h.toHolds.slices hrecv, if_pos hrecv, hu, hmod, htake]
    rfl
  · have hdrop : items.drop length.toNat = items.drop (min length.toNat items.length) := by
      rcases Nat.le_total length.toNat items.length with hlt | hge
      · rw [Nat.min_eq_left hlt]
      · rw [Nat.min_eq_right hge, List.drop_length, List.drop_eq_nil_of_le hge]
    rw [hdrop]
    generalize min length.toNat items.length = n at hrecv
    have hall := h.items_eq
    rw [← Nat.add_sub_cancel' hrecv, Ring.contents_add] at hall
    refine ⟨⟨Nat.mod_lt _ (by omega), h.size_lt, ?_, ?_, ?_⟩, ?_, hsize⟩
    · rw [List.length_drop]
      exact (Nat.sub_le _ _).trans hle
    · rw [List.length_drop, Nat.mod_add_mod, Nat.add_assoc, Nat.add_sub_cancel' hrecv]
      exact h.put_eq
    · rw [List.length_drop]
      have hrest := congrArg (List.drop n) hall
      rwa [List.drop_left' (Ring.length_contents _ _ _ _)] at hrest
    · rw [List.length_drop]
      have hfull := h.full_iff
      dsimp only
      split
      · rename_i hpart
        exact iff_of_false nofun (by omega)
      · rename_i hwhole
        rw [hfull]
        rw [hfull] at hwhole
        omega

end

/-- The FIFO in DMA mode stands for the queue. -/
structure DmaRefines {bufsz : Nat} (s : DmaRx) (q : BoundedQueue Byte bufsz) : Prop where
  size : s.fifo.bufsz = bufsz
  pos : s.fifo.putIndex = s.pos
  holds : DmaHolds s.fifo q.items

theorem DmaRefines.dmaStep {bufsz : Nat} {s : DmaRx} {q : BoundedQueue Byte bufsz}
    (h : DmaRefines s q) (e : DmaEvent bufsz) :
    DmaRefines (dmaStep s e).1 (dmaQueueStep q e).1 ∧
      (dmaStep s e).2 = (dmaQueueStep q e).2 := by
  obtain ⟨⟨bufsz', buffer, put, get, full⟩, pos⟩ := s
  obtain ⟨hsize, hpos, hholds⟩ := h
  dsimp only at hsize hpos
  subst hsize hpos
  cases e with
  | done block =>
    obtain ⟨hsize, hput, hholds'⟩ := hholds.done block.length_le
    rw [← BoundedQueue.items_force] at hholds'
    exact ⟨⟨hsize, hput, hholds'⟩,
      congrArg (fun n => some (Answer.length n)) hholds'.recvedLen⟩
  | read length =>
    obtain ⟨f', hread, hsize, hput, hholds'⟩ := hholds.serialDmaRx length
    dsimp only [SerialFifo.dmaStep, dmaQueueStep]
    rw [hread]
    exact ⟨⟨hsize, hput, hholds'⟩, rfl⟩

/-- In DMA mode the FIFO is a queue of the newest bytes, as many as there is room for, and no
assertion fails. The put index is the position of the DMA. -/
theorem dma_outputs_eq_queue (buffer : Nat → Byte) (bufsz : Nat) (hmin : 1 ≤ bufsz)
    (hmax : bufsz ≤ 32767) (es : List (DmaEvent bufsz)) :
    outputs dmaStep { fifo := { bufsz := bufsz, buffer := buffer } } es =
        outputs dmaQueueStep BoundedQueue.empty es ∧
      (final dmaStep { fifo := { bufsz := bufsz, buffer := buffer } } es).fifo.putIndex =
        (final dmaStep { fifo := { bufsz := bufsz, buffer := buffer } } es).pos := by
  have hstart : DmaRefines { fifo := { bufsz := bufsz, buffer := buffer } }
      (BoundedQueue.empty : BoundedQueue Byte bufsz) := by
    refine ⟨rfl, rfl, ⟨⟨hmin, by dsimp only; omega, Nat.zero_le _, (Nat.zero_mod _).symm, rfl⟩, ?_,
      hmax⟩⟩
    exact iff_of_false nofun (Nat.ne_of_lt hmin)
  refine ⟨outputs_eq_of_simulation _ (fun s q e h => h.dmaStep e) hstart es, ?_⟩
  have hrefines := final_invariant dmaStep (I := fun s => ∃ q : BoundedQueue Byte bufsz,
    DmaRefines s q) (fun s e ⟨q, h⟩ => ⟨_, (h.dmaStep e).1⟩) ⟨_, hstart⟩ es
  exact hrefines.elim fun q h => h.pos

/-- Two blocks of two bytes for a FIFO of three: the first byte is dropped. -/
theorem dma_outputs_eq_queue_three :
    let es : List (DmaEvent 3) :=
      [.done ⟨[1, 2], by decide⟩, .done ⟨[3, 4], by decide⟩, .read 9]
    outputs dmaStep { fifo := { bufsz := 3, buffer := fun _ => 0 } } es =
        outputs dmaQueueStep BoundedQueue.empty es ∧
      (final dmaStep { fifo := { bufsz := 3, buffer := fun _ => 0 } } es).fifo.putIndex =
        (final dmaStep { fifo := { bufsz := 3, buffer := fun _ => 0 } } es).pos :=
  dma_outputs_eq_queue (fun _ => 0) 3 (by decide) (by decide) _

end ControlRTT.Drivers.SerialFifo

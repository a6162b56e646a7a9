import ControlRTT.Drivers.RingBuffer

/-! # What the ring buffer is for

The ring buffer is a bounded queue of bytes (`outputs_eq_queue`), but for one case of
`rt_ringbuffer_put_force`: a block that overwrites old data while both indices are in the
same mirror flips both, and the buffer is empty (`keepsNewest_iff`). -/
namespace ControlRTT.Drivers.RingBuffer
open ControlRTT.Lib ControlRTT.Lib.CInt ControlRTT.Kernel.RtDef

/-- The queue that a buffer stands for. -/
structure Refines {capacity : Nat} (rb : RtRingbuffer) (q : BoundedQueue Byte capacity) :
    Prop where
  ok : rb.Ok
  size : rb.bufferSize = capacity
  items : rb.contents = q.items

namespace Refines
variable {capacity : Nat} {rb : RtRingbuffer} {q : BoundedQueue Byte capacity}

theorem dataLen (h : Refines rb q) : rb.dataLen = q.items.length := by
  rw [← h.items, rb.length_contents]

theorem spaceLen (h : Refines rb q) : rb.spaceLen = q.space := by
  rw [RtRingbuffer.spaceLen, h.dataLen, h.size, BoundedQueue.space]

theorem put (h : Refines rb q) (ptr : Block) :
    Refines (rb.put ptr).1 (q.put ptr.bytes) ∧
      (rb.put ptr).2 = min ptr.bytes.length q.space := by
  unfold RtRingbuffer.put
  rw [h.ok.u16_spaceLen]
  split
  · rename_i hfull
    rw [h.spaceLen] at hfull
    refine ⟨⟨h.ok, h.size, ?_⟩, ?_⟩
    · rw [h.items, BoundedQueue.items_put, hfull, List.take_zero, List.append_nil]
    · rw [hfull, Nat.min_zero]
  · have hcut : (ptr.bytes.take rb.spaceLen).length ≤ rb.spaceLen := List.length_take_le _ _
    obtain ⟨hok, hcontents⟩ := h.ok.copyIn hcut
    refine ⟨⟨hok, (rb.copyIn_bufferSize).trans h.size, ?_⟩, ?_⟩
    · rw [hcontents, h.items, h.spaceLen, BoundedQueue.items_put]
    · rw [List.length_take, h.spaceLen, Nat.min_comm]

theorem get (h : Refines rb q) (length : BitVec 16) :
    Refines (rb.get length).1 (q.drop length.toNat) ∧
      (rb.get length).2 = q.items.take length.toNat := by
  have hcopy : ∀ n ≤ rb.dataLen, Refines (rb.copyOut n).1 (q.drop n) ∧
      (rb.copyOut n).2 = q.items.take n := by
    intro n hn
    obtain ⟨hok, hcontents, hsize, hbytes⟩ := h.ok.copyOut hn
    exact ⟨⟨hok, hsize.trans h.size, by rw [hcontents, h.items, BoundedQueue.items_drop]⟩,
      by rw [hbytes, h.items]⟩
  unfold RtRingbuffer.get
  split
  · rename_i hempty
    rw [h.dataLen] at hempty
    have hnil := List.eq_nil_of_length_eq_zero hempty
    refine ⟨⟨h.ok, h.size, ?_⟩, ?_⟩
    · rw [h.items, BoundedQueue.items_drop, hnil, List.drop_nil]
    · rw [hnil, List.take_nil]
  · split
    · rename_i hless
      obtain ⟨⟨hok, hsize, hitems⟩, hbytes⟩ := hcopy _ (Nat.le_refl _)
      rw [h.dataLen] at hless
      have hall : q.items.length ≤ length.toNat := hless.le
      refine ⟨⟨hok, hsize, ?_⟩, ?_⟩
      · rw [hitems, BoundedQueue.items_drop, BoundedQueue.items_drop, h.dataLen,
          List.drop_length, List.drop_eq_nil_of_le hall]
      · rw [hbytes, h.dataLen, List.take_length, List.take_of_length_le hall]
    · rename_i henough
      exact hcopy _ (not_lt.mp henough)

theorem reset (h : Refines rb q) :
    Refines rb.reset (BoundedQueue.empty : BoundedQueue Byte capacity) :=
  ⟨⟨h.ok.size_pos, h.ok.size_lt, h.ok.size_pos, h.ok.size_pos, fun _ => Nat.le_refl 0,
    fun hm => absurd rfl hm⟩, h.size, rfl⟩

theorem forceIn (h : Refines rb q) {block : List Byte} (hle : block.length ≤ capacity)
    (hroom : rb.readMirror = rb.writeMirror → block.length ≤ rb.spaceLen) :
    Refines (rb.forceIn block) (q.force block) := by
  have hsize := h.size
  by_cases hlt : rb.spaceLen < block.length
  · have hm : rb.readMirror ≠ rb.writeMirror := fun hm => absurd (hroom hm) (not_le.mpr hlt)
    obtain ⟨hok, hcontents⟩ := h.ok.overwrite (hsize ▸ hle) hlt hm
    refine ⟨hok, ?_, ?_⟩
    · rw [h.ok.forceIn_of_ne hlt hm]
      exact (rb.copyIn_bufferSize).trans hsize
    · rw [hcontents, BoundedQueue.force_of_length_le q hle, h.dataLen, h.items, hsize]
  · have hle' := not_lt.mp hlt
    obtain ⟨hok, hcontents⟩ := h.ok.copyIn hle'
    rw [h.ok.forceIn_of_le hle']
    refine ⟨hok, (rb.copyIn_bufferSize).trans hsize, ?_⟩
    rw [hcontents, h.items, BoundedQueue.force_of_le (h.spaceLen ▸ hle')]

theorem putForce (h : Refines rb q) {ptr : Block}
    (hroom : rb.readMirror = rb.writeMirror →
      min ptr.bytes.length rb.bufferSize ≤ rb.spaceLen) :
    Refines (rb.putForce ptr).1 (q.force ptr.bytes) := by
  have hsize := h.size
  have hcut : ptr.bytes.drop (ptr.bytes.length - rb.bufferSize) =
      (BoundedQueue.newest capacity ptr.bytes).items := by
    rw [BoundedQueue.items_newest, hsize]
  have hlen : (ptr.bytes.drop (ptr.bytes.length - rb.bufferSize)).length =
      min ptr.bytes.length rb.bufferSize := by
    rw [List.length_drop]
    omega
  obtain ⟨hok, hsize', hitems⟩ := h.forceIn (hlen ▸ hsize ▸ Nat.min_le_right _ _)
    (hlen ▸ hroom)
  refine ⟨hok, hsize', hitems.trans ?_⟩
  rw [hcut, BoundedQueue.force_newest]

theorem init (pool : Nat → Byte) {size : Nat} (hmin : 4 ≤ size) (hmax : size ≤ 32767) :
    Refines (RtRingbuffer.init pool size)
      (BoundedQueue.empty : BoundedQueue Byte (rtAlignDown size rtAlignSize)) := by
  have hle := rtAlignDown_le size rtAlignSize
  have hpos : 0 < rtAlignDown size rtAlignSize :=
    Nat.mul_pos (Nat.div_pos hmin (by decide)) (by decide)
  exact ⟨⟨hpos, (hle.trans hmax).trans_lt (by decide), hpos, hpos, fun _ => Nat.le_refl 0,
    fun hm => absurd rfl hm⟩, rfl, rfl⟩

end Refines

/-! ## A queue of bytes -/

inductive Op where
  | put (ptr : Block)
  | get (length : BitVec 16)
  | putchar (ch : Byte)
  | getchar
  | putcharForce (ch : Byte)
  | reset
  | dataLen
  | spaceLen

/-- What a call returns, and the bytes it gets. -/
structure Answer where
  ret : Nat := 0
  data : List Byte := []
  deriving DecidableEq, Repr

def step (rb : RtRingbuffer) : Op → RtRingbuffer × Answer
  | .put ptr => ((rb.put ptr).1, { ret := (rb.put ptr).2 })
  | .get length =>
    ((rb.get length).1, { ret := (rb.get length).2.length, data := (rb.get length).2 })
  | .putchar ch => ((rb.putchar ch).1, { ret := (rb.putchar ch).2 })
  | .getchar => (rb.getchar.1, { ret := rb.getchar.2.length, data := rb.getchar.2 })
  | .putcharForce ch => ((rb.putcharForce ch).1, { ret := (rb.putcharForce ch).2 })
  | .reset => (rb.reset, {})
  | .dataLen => (rb, { ret := rb.dataLen })
  | .spaceLen => (rb, { ret := rb.spaceLen })

/-- The same calls of a bounded queue. -/
def queueStep {capacity : Nat} (q : BoundedQueue Byte capacity) :
    Op → BoundedQueue Byte capacity × Answer
  | .put ptr => (q.put ptr.bytes, { ret := min ptr.bytes.length q.space })
  | .get length =>
    (q.drop length.toNat, {
      ret := min length.toNat q.items.length
      data := q.items.take length.toNat })
  | .putchar ch => (q.put [ch], { ret := min 1 q.space })
  | .getchar => (q.drop 1, { ret := min 1 q.items.length, data := q.items.take 1 })
  | .putcharForce ch => (q.force [ch], { ret := 1 })
  | .reset => (.empty, {})
  | .dataLen => (q, { ret := q.items.length })
  | .spaceLen => (q, { ret := q.space })

theorem Refines.step {capacity : Nat} {rb : RtRingbuffer} {q : BoundedQueue Byte capacity}
    (h : Refines rb q) (op : Op) :
    Refines (step rb op).1 (queueStep q op).1 ∧ (step rb op).2 = (queueStep q op).2 := by
  cases op with
  | put ptr =>
    obtain ⟨hnext, hret⟩ := h.put ptr
    exact ⟨hnext, congrArg (fun n => { ret := n : Answer }) hret⟩
  | get length =>
    obtain ⟨hnext, hdata⟩ := h.get length
    refine ⟨hnext, ?_⟩
    simp only [RingBuffer.step, queueStep, hdata, List.length_take]
  | putchar ch =>
    obtain ⟨hnext, hret⟩ := h.put (.single ch)
    rw [← h.ok.putchar_eq ch] at hnext hret
    exact ⟨hnext, congrArg (fun n => { ret := n : Answer }) hret⟩
  | getchar =>
    obtain ⟨hnext, hdata⟩ := h.get 1
    rw [← h.ok.getchar_eq] at hnext hdata
    refine ⟨hnext, ?_⟩
    simp only [RingBuffer.step, queueStep, hdata, List.length_take]
    rfl
  | putcharForce ch =>
    have hroom : rb.readMirror = rb.writeMirror →
        min (Block.single ch).bytes.length rb.bufferSize ≤ rb.spaceLen := fun hm => by
      have hdata := h.ok.dataLen_eq
      have hw := h.ok.write_lt
      rw [if_pos hm] at hdata
      refine (Nat.min_le_left _ _).trans ?_
      change 1 ≤ rb.bufferSize - rb.dataLen
      omega
    have hnext := h.putForce hroom
    have hret : (rb.putcharForce ch).2 = 1 := by
      unfold RtRingbuffer.putcharForce
      split
      · rfl
      · rfl
    rw [← h.ok.putcharForce_eq ch] at hnext
    exact ⟨hnext, congrArg (fun n => { ret := n : Answer }) hret⟩
  | reset => exact ⟨h.reset, rfl⟩
  | dataLen => exact ⟨h, congrArg (fun n => { ret := n : Answer }) h.dataLen⟩
  | spaceLen => exact ⟨h, congrArg (fun n => { ret := n : Answer }) h.spaceLen⟩

/-- Any calls but forced puts of blocks, of any length, in any order. -/
theorem outputs_eq_queue (pool : Nat → Byte) {size : Nat} (hmin : 4 ≤ size)
    (hmax : size ≤ 32767) (ops : List Op) :
    Mealy.outputs step (RtRingbuffer.init pool size) ops =
      Mealy.outputs queueStep
        (BoundedQueue.empty : BoundedQueue Byte (rtAlignDown size rtAlignSize)) ops :=
  Mealy.outputs_eq_of_simulation step (R := Refines) (fun _ _ op h => h.step op)
    (Refines.init pool hmin hmax) ops

theorem outputs_eq_queue_16 :
    Mealy.outputs step (RtRingbuffer.init (fun _ => 0) 16) [.putchar 1, .getchar] =
      Mealy.outputs queueStep
        (BoundedQueue.empty : BoundedQueue Byte (rtAlignDown 16 rtAlignSize))
        [.putchar 1, .getchar] :=
  outputs_eq_queue (fun _ => 0) (by decide) (by decide) _

/-! ## Forced puts -/

inductive Call where
  | op (o : Op)
  | putForce (ptr : Block)

def call (rb : RtRingbuffer) : Call → RtRingbuffer
  | .op o => (step rb o).1
  | .putForce ptr => (rb.putForce ptr).1

/-- The last `buffer_size` bytes of what was there and the block. -/
def newest (rb : RtRingbuffer) (ptr : Block) : List Byte :=
  (BoundedQueue.newest rb.bufferSize (rb.contents ++ ptr.bytes)).items

/-- After a forced put the buffer has the newest bytes, and says so. -/
structure KeepsNewest (rb : RtRingbuffer) (ptr : Block) : Prop where
  get : ∀ length : BitVec 16,
    ((rb.putForce ptr).1.get length).2 = (newest rb ptr).take length.toNat
  dataLen : (rb.putForce ptr).1.dataLen = (newest rb ptr).length
  empty : (rb.putForce ptr).1.status = .empty ↔ newest rb ptr = []
  full : (rb.putForce ptr).1.status = .full ↔ (newest rb ptr).length = rb.bufferSize

/-- The block overwrites old data while both indices are in one mirror. -/
def Overtakes (rb : RtRingbuffer) (ptr : Block) : Prop :=
  rb.readMirror = rb.writeMirror ∧ rb.spaceLen < min ptr.bytes.length rb.bufferSize

instance (rb : RtRingbuffer) (ptr : Block) : Decidable (Overtakes rb ptr) :=
  inferInstanceAs (Decidable (_ ∧ _))

namespace RtRingbuffer.Ok
variable {rb : RtRingbuffer}

/-- Every buffer whose indices are right stands for a queue. -/
theorem refines (h : rb.Ok) : ∃ q : BoundedQueue Byte rb.bufferSize, Refines rb q :=
  ⟨⟨rb.contents, rb.length_contents ▸ h.dataLen_le⟩, h, rfl, rfl⟩

theorem length_cut (rb : RtRingbuffer) (ptr : Block) :
    (ptr.bytes.drop (ptr.bytes.length - rb.bufferSize)).length =
      min ptr.bytes.length rb.bufferSize := by
  rw [List.length_drop]
  omega

theorem overtaken (h : rb.Ok) {ptr : Block} (hover : Overtakes rb ptr) :
    (rb.putForce ptr).1.Ok ∧ (rb.putForce ptr).1.dataLen = 0 := by
  have hlen := length_cut rb ptr
  exact h.overtake (hlen ▸ Nat.min_le_right _ _) (hlen ▸ hover.2) hover.1

theorem call (h : rb.Ok) (c : Call) : (RingBuffer.call rb c).Ok := by
  obtain ⟨q, hq⟩ := h.refines
  cases c with
  | op o => exact (hq.step o).1.ok
  | putForce ptr =>
    by_cases hover : Overtakes rb ptr
    · exact (h.overtaken hover).1
    · exact (hq.putForce fun hm => not_lt.mp fun hlt => hover ⟨hm, hlt⟩).ok

theorem calls (h : rb.Ok) (cs : List Call) : (cs.foldl RingBuffer.call rb).Ok := by
  induction cs generalizing rb with
  | nil => exact h
  | cons c cs ih => exact ih (h.call c)

theorem keepsNewest_iff_not_overtakes (h : rb.Ok) (ptr : Block) :
    KeepsNewest rb ptr ↔ ¬ Overtakes rb ptr := by
  refine ⟨fun hkeeps hover => ?_, fun hover => ?_⟩
  · have hzero := hkeeps.dataLen.symm.trans (h.overtaken hover).2
    have hlt := hover.2
    rw [newest, BoundedQueue.items_newest, List.length_drop, List.length_append,
      rb.length_contents] at hzero
    unfold RtRingbuffer.spaceLen at hlt
    have := h.dataLen_le
    omega
  · obtain ⟨q, hq⟩ := h.refines
    have hforce := hq.putForce fun hm => not_lt.mp fun hlt => hover ⟨hm, hlt⟩
    have hnewest : newest rb ptr = (q.force ptr.bytes).items := by
      rw [newest, hq.items]
      rfl
    rw [← hforce.items] at hnewest
    have hlen : (rb.putForce ptr).1.dataLen = (newest rb ptr).length := by
      rw [hnewest, RtRingbuffer.length_contents]
    refine ⟨fun length => ?_, hlen, ?_, ?_⟩
    · rw [(hforce.get length).2, hnewest, hforce.items]
    · rw [← hforce.ok.dataLen_eq_zero, hlen, List.length_eq_zero_iff]
    · rw [← hforce.ok.spaceLen_eq_zero, RtRingbuffer.spaceLen, hforce.size, hlen]
      have hle := hforce.ok.dataLen_le
      rw [hlen, hforce.size] at hle
      omega

end RtRingbuffer.Ok

/-- In every state that calls lead to, forced puts included. -/
theorem keepsNewest_iff (pool : Nat → Byte) {size : Nat} (hmin : 4 ≤ size)
    (hmax : size ≤ 32767) (calls : List Call) (ptr : Block) :
    KeepsNewest (calls.foldl call (RtRingbuffer.init pool size)) ptr ↔
      ¬ Overtakes (calls.foldl call (RtRingbuffer.init pool size)) ptr :=
  ((Refines.init pool hmin hmax).ok.calls calls).keepsNewest_iff_not_overtakes ptr

def fourBytes : Block := ⟨[1, 2, 3, 4], by decide⟩

theorem keepsNewest_iff_16 :
    KeepsNewest ([].foldl call (RtRingbuffer.init (fun _ => 0) 16)) fourBytes ↔
      ¬ Overtakes ([].foldl call (RtRingbuffer.init (fun _ => 0) 16)) fourBytes :=
  keepsNewest_iff (fun _ => 0) (by decide) (by decide) [] fourBytes

/-- One byte is in a buffer of four, and four more come. -/
theorem putForce_empties_the_buffer :
    ¬ KeepsNewest ([Call.op (.putchar 0)].foldl call (RtRingbuffer.init (fun _ => 0) 4))
      fourBytes := fun h => by
  have := h.dataLen
  revert this
  decide

end ControlRTT.Drivers.RingBuffer

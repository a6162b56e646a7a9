import ControlRTT.Kernel.RtDef
import ControlRTT.Lib.BoundedQueue
import ControlRTT.Lib.Mealy
import ControlRTT.Lib.Ring
import Mathlib.Data.List.GetD

/-! # The ring buffer (ringbuffer.c)

An index has a mirror bit that flips when the index wraps; equal indices are an empty
buffer if their mirrors are equal too, else a full one. The buffer answers as a bounded
queue of bytes does (`outputs_eq`). -/
namespace ControlRTT.Drivers.RingBuffer
open ControlRTT.Lib ControlRTT.Lib.CInt ControlRTT.Kernel.RtDef

inductive RtRingbufferState where
  | empty
  | full
  | halffull
  deriving DecidableEq, Repr

structure RtRingbuffer where
  bufferPtr : Nat → Byte
  readMirror : Bool := false
  readIndex : Nat := 0
  writeMirror : Bool := false
  writeIndex : Nat := 0
  bufferSize : Nat

/-- What the 15 bits of an index keep. -/
def u15 (n : Nat) : Nat := n % 2 ^ 15

/-- What a `rt_uint16_t` keeps. -/
def u16 (n : Nat) : Nat := n % 2 ^ 16

def memcpy (pool : Nat → Byte) (start : Nat) (block : List Byte) : Nat → Byte := fun j =>
  if start ≤ j then block.getD (j - start) (pool j) else pool j

def slice (pool : Nat → Byte) (start n : Nat) : List Byte :=
  (List.range n).map fun i => pool (start + i)

/-- The bytes that a call gets passed; their number is a `rt_uint16_t`. -/
structure Block where
  bytes : List Byte
  length_lt : bytes.length < 2 ^ 16

def Block.single (ch : Byte) : Block := ⟨[ch], Nat.one_lt_two_pow (by decide)⟩

namespace RtRingbuffer

def init (pool : Nat → Byte) (size : Nat) : RtRingbuffer where
  bufferPtr := pool
  bufferSize := rtAlignDown size rtAlignSize

def status (rb : RtRingbuffer) : RtRingbufferState :=
  if rb.readIndex = rb.writeIndex then
    if rb.readMirror = rb.writeMirror then .empty else .full
  else .halffull

def dataLen (rb : RtRingbuffer) : Nat :=
  match rb.status with
  | .empty => 0
  | .full => rb.bufferSize
  | .halffull =>
    if rb.writeIndex > rb.readIndex then rb.writeIndex - rb.readIndex
    else rb.bufferSize - (rb.readIndex - rb.writeIndex)

def spaceLen (rb : RtRingbuffer) : Nat := rb.bufferSize - rb.dataLen

/-- The block ends before the end of the buffer. -/
def copyStraight (rb : RtRingbuffer) (block : List Byte) : RtRingbuffer :=
  { rb with
    bufferPtr := memcpy rb.bufferPtr rb.writeIndex block
    writeIndex := u15 (rb.writeIndex + block.length) }

/-- The block reaches the end of the buffer, and its rest goes to the start. -/
def copyWrapped (rb : RtRingbuffer) (block : List Byte) : RtRingbuffer :=
  { rb with
    bufferPtr := memcpy
      (memcpy rb.bufferPtr rb.writeIndex (block.take (rb.bufferSize - rb.writeIndex))) 0
      (block.drop (rb.bufferSize - rb.writeIndex))
    writeMirror := !rb.writeMirror
    writeIndex := u15 (block.length - (rb.bufferSize - rb.writeIndex)) }

def copyIn (rb : RtRingbuffer) (block : List Byte) : RtRingbuffer :=
  if rb.bufferSize - rb.writeIndex > block.length then rb.copyStraight block
  else rb.copyWrapped block

/-- A buffer with its new state and what the call returns. -/
def put (rb : RtRingbuffer) (ptr : Block) : RtRingbuffer × Nat :=
  if u16 rb.spaceLen = 0 then (rb, 0)
  else (rb.copyIn (ptr.bytes.take (u16 rb.spaceLen)),
    (ptr.bytes.take (u16 rb.spaceLen)).length)

/-- `read_index` follows `write_index`. -/
def dropOldest (rb : RtRingbuffer) : RtRingbuffer := { rb with readIndex := rb.writeIndex }

def flipRead (rb : RtRingbuffer) : RtRingbuffer := { rb with readMirror := !rb.readMirror }

def forceIn (rb : RtRingbuffer) (block : List Byte) : RtRingbuffer :=
  if rb.bufferSize - rb.writeIndex > block.length then
    if block.length > u16 rb.spaceLen then (rb.copyStraight block).dropOldest
    else rb.copyStraight block
  else if block.length > u16 rb.spaceLen then (rb.copyWrapped block).flipRead.dropOldest
  else rb.copyWrapped block

def putForce (rb : RtRingbuffer) (ptr : Block) : RtRingbuffer × Nat :=
  (rb.forceIn (ptr.bytes.drop (ptr.bytes.length - rb.bufferSize)),
    (ptr.bytes.drop (ptr.bytes.length - rb.bufferSize)).length)

def copyOut (rb : RtRingbuffer) (length : Nat) : RtRingbuffer × List Byte :=
  if rb.bufferSize - rb.readIndex > length then
    ({ rb with readIndex := u15 (rb.readIndex + length) },
      slice rb.bufferPtr rb.readIndex length)
  else
    ({ rb with
        readMirror := !rb.readMirror
        readIndex := u15 (length - (rb.bufferSize - rb.readIndex)) },
      slice rb.bufferPtr rb.readIndex (rb.bufferSize - rb.readIndex) ++
        slice rb.bufferPtr 0 (length - (rb.bufferSize - rb.readIndex)))

/-- The bytes that have been copied to `ptr`; the call returns their number. -/
def get (rb : RtRingbuffer) (length : BitVec 16) : RtRingbuffer × List Byte :=
  if rb.dataLen = 0 then (rb, [])
  else if rb.dataLen < length.toNat then rb.copyOut rb.dataLen
  else rb.copyOut length.toNat

/-- `write_index` at the next byte. -/
def advanceWrite (rb : RtRingbuffer) : RtRingbuffer :=
  if rb.writeIndex = rb.bufferSize - 1 then
    { rb with writeMirror := !rb.writeMirror, writeIndex := 0 }
  else { rb with writeIndex := u15 (rb.writeIndex + 1) }

def storeChar (rb : RtRingbuffer) (ch : Byte) : RtRingbuffer :=
  { rb with bufferPtr := Function.update rb.bufferPtr rb.writeIndex ch }

def putchar (rb : RtRingbuffer) (ch : Byte) : RtRingbuffer × Nat :=
  if rb.spaceLen = 0 then (rb, 0) else ((rb.storeChar ch).advanceWrite, 1)

def putcharForce (rb : RtRingbuffer) (ch : Byte) : RtRingbuffer × Nat :=
  if rb.writeIndex = rb.bufferSize - 1 then
    (if rb.status = .full then (rb.storeChar ch).advanceWrite.flipRead.dropOldest
      else (rb.storeChar ch).advanceWrite, 1)
  else
    (if rb.status = .full then (rb.storeChar ch).advanceWrite.dropOldest
      else (rb.storeChar ch).advanceWrite, 1)

def getchar (rb : RtRingbuffer) : RtRingbuffer × List Byte :=
  if rb.dataLen = 0 then (rb, [])
  else if rb.readIndex = rb.bufferSize - 1 then
    ({ rb with readMirror := !rb.readMirror, readIndex := 0 }, [rb.bufferPtr rb.readIndex])
  else
    ({ rb with readIndex := u15 (rb.readIndex + 1) }, [rb.bufferPtr rb.readIndex])

def reset (rb : RtRingbuffer) : RtRingbuffer :=
  { rb with readMirror := false, readIndex := 0, writeMirror := false, writeIndex := 0 }

/-! ## Indices -/

structure Ok (rb : RtRingbuffer) : Prop where
  size_pos : 0 < rb.bufferSize
  size_lt : rb.bufferSize < 2 ^ 15
  read_lt : rb.readIndex < rb.bufferSize
  write_lt : rb.writeIndex < rb.bufferSize
  ahead : rb.readMirror = rb.writeMirror → rb.readIndex ≤ rb.writeIndex
  behind : rb.readMirror ≠ rb.writeMirror → rb.writeIndex ≤ rb.readIndex

namespace Ok
variable {rb : RtRingbuffer}

/-- The data go from the read index to the write index, around the end if the mirrors
differ. -/
theorem dataLen_eq (h : rb.Ok) :
    rb.dataLen = if rb.readMirror = rb.writeMirror then rb.writeIndex - rb.readIndex
      else rb.writeIndex + rb.bufferSize - rb.readIndex := by
  have hr := h.read_lt
  unfold dataLen status
  by_cases hm : rb.readMirror = rb.writeMirror
  · have := h.ahead hm
    rw [if_pos hm, if_pos hm]
    by_cases heq : rb.readIndex = rb.writeIndex
    · rw [if_pos heq, heq, Nat.sub_self]
    · rw [if_neg heq]
      dsimp only
      rw [if_pos (by omega)]
  · have := h.behind hm
    rw [if_neg hm, if_neg hm]
    by_cases heq : rb.readIndex = rb.writeIndex
    · rw [if_pos heq]
      dsimp only
      omega
    · rw [if_neg heq]
      dsimp only
      rw [if_neg (by omega)]
      omega

theorem dataLen_le (h : rb.Ok) : rb.dataLen ≤ rb.bufferSize := by
  have hw := h.write_lt
  rw [h.dataLen_eq]
  split
  · omega
  · rename_i hm
    have := h.behind hm
    omega

/-- The data end where the next byte is written. -/
theorem write_eq (h : rb.Ok) :
    rb.writeIndex = (rb.readIndex + rb.dataLen) % rb.bufferSize := by
  have hw := h.write_lt
  have hr := h.read_lt
  rw [h.dataLen_eq]
  split
  · rename_i hm
    have := h.ahead hm
    rw [Nat.add_sub_cancel' this, Nat.mod_eq_of_lt hw]
  · rw [Nat.add_sub_cancel' (by omega), Nat.add_mod_right, Nat.mod_eq_of_lt hw]

theorem u16_spaceLen (h : rb.Ok) : u16 rb.spaceLen = rb.spaceLen := by
  have := h.size_lt
  unfold spaceLen u16
  exact Nat.mod_eq_of_lt (by omega)

theorem u15_eq (h : rb.Ok) {n : Nat} (hn : n ≤ rb.bufferSize) : u15 n = n :=
  Nat.mod_eq_of_lt (hn.trans_lt h.size_lt)

end Ok

/-! ## Memory -/

theorem memcpy_at (pool : Nat → Byte) (start : Nat) {block : List Byte} {i : Nat}
    (hi : i < block.length) : memcpy pool start block (start + i) = block[i] := by
  rw [memcpy, if_pos (Nat.le_add_right _ _), Nat.add_sub_cancel_left, List.getD_eq_getElem _ _ hi]

theorem memcpy_of_ne (pool : Nat → Byte) {start : Nat} {block : List Byte} {j : Nat}
    (h : ∀ i < block.length, j ≠ start + i) : memcpy pool start block j = pool j := by
  unfold memcpy
  split
  · rename_i hle
    have hge : block.length ≤ j - start := by
      by_contra hlt
      exact h (j - start) (not_le.mp hlt) (Nat.add_sub_cancel' hle).symm
    exact List.getD_eq_default _ _ hge
  · rfl

theorem slice_eq_contents (pool : Nat → Byte) {size start n : Nat} (h : start + n ≤ size) :
    slice pool start n = Ring.contents pool size start n := by
  refine List.map_congr_left fun i hi => ?_
  rw [Nat.mod_eq_of_lt ((Nat.add_lt_add_left (List.mem_range.mp hi) start).trans_le h)]

/-- A block is read in two parts if it wraps. -/
theorem slice_append_slice (pool : Nat → Byte) {size start n : Nat} (hstart : start < size)
    (hn : size - start ≤ n) (hle : n ≤ size) :
    slice pool start (size - start) ++ slice pool 0 (n - (size - start)) =
      Ring.contents pool size start n := by
  have hsplit : n = size - start + (n - (size - start)) := (Nat.add_sub_cancel' hn).symm
  have hwrap : (start + (size - start)) % size = 0 := by
    rw [Nat.add_sub_cancel' hstart.le, Nat.mod_self]
  rw [hsplit, Ring.contents_add, hwrap, ← hsplit, @slice_eq_contents pool size _ _ (by omega),
    @slice_eq_contents pool size 0 _ (by omega)]

variable {rb : RtRingbuffer} {block : List Byte}

theorem copyIn_at (hw : rb.writeIndex < rb.bufferSize) (hle : block.length ≤ rb.bufferSize)
    (i : Nat) (hi : i < block.length) :
    (rb.copyIn block).bufferPtr ((rb.writeIndex + i) % rb.bufferSize) = block[i] := by
  unfold copyIn
  split
  · rename_i hfits
    rw [Nat.mod_eq_of_lt (by omega)]
    exact memcpy_at _ _ hi
  · rename_i hwraps
    unfold copyWrapped
    dsimp only
    by_cases hlow : i < rb.bufferSize - rb.writeIndex
    · have htake : i < (block.take (rb.bufferSize - rb.writeIndex)).length := by
        rw [List.length_take]
        omega
      rw [Nat.mod_eq_of_lt (by omega), memcpy_of_ne _ fun k hk => ?_, memcpy_at _ _ htake,
        List.getElem_take]
      rw [List.length_drop] at hk
      omega
    · obtain ⟨k, rfl⟩ := Nat.exists_eq_add_of_le (not_lt.mp hlow)
      have hdrop : k < (block.drop (rb.bufferSize - rb.writeIndex)).length := by
        rw [List.length_drop]
        omega
      rw [← Nat.add_assoc, Nat.add_sub_cancel' hw.le, Nat.add_mod_left, Nat.mod_eq_of_lt (by omega)]
      have hat := memcpy_at (memcpy rb.bufferPtr rb.writeIndex
        (block.take (rb.bufferSize - rb.writeIndex))) 0 hdrop
      rw [Nat.zero_add] at hat
      rw [hat, List.getElem_drop]

theorem copyIn_of_ne (hw : rb.writeIndex < rb.bufferSize) (hle : block.length ≤ rb.bufferSize)
    (j : Nat) (hj : ∀ i < block.length, j ≠ (rb.writeIndex + i) % rb.bufferSize) :
    (rb.copyIn block).bufferPtr j = rb.bufferPtr j := by
  unfold copyIn
  split
  · rename_i hfits
    refine memcpy_of_ne _ fun i hi hji => hj i hi ?_
    rw [hji, Nat.mod_eq_of_lt (by omega)]
  · rename_i hwraps
    unfold copyWrapped
    dsimp only
    rw [memcpy_of_ne _ fun i hi hji => ?_, memcpy_of_ne _ fun i hi hji => ?_]
    · rw [List.length_take] at hi
      refine hj i (by omega) ?_
      rw [hji, Nat.mod_eq_of_lt (by omega)]
    · rw [List.length_drop] at hi
      refine hj (rb.bufferSize - rb.writeIndex + i) (by omega) ?_
      rw [hji, ← Nat.add_assoc, Nat.add_sub_cancel' hw.le, Nat.add_mod_left, Nat.zero_add,
        Nat.mod_eq_of_lt (by omega)]

@[simp] theorem copyIn_readMirror : (rb.copyIn block).readMirror = rb.readMirror := by
  unfold copyIn
  split
  · rfl
  · rfl

@[simp] theorem copyIn_readIndex : (rb.copyIn block).readIndex = rb.readIndex := by
  unfold copyIn
  split
  · rfl
  · rfl

@[simp] theorem copyIn_bufferSize : (rb.copyIn block).bufferSize = rb.bufferSize := by
  unfold copyIn
  split
  · rfl
  · rfl

/-- Where the write index gets to: past the block, with the mirror flipped if that is past the
end. -/
theorem Ok.copyIn_write (h : rb.Ok) (hle : block.length ≤ rb.bufferSize) :
    (rb.writeIndex + block.length < rb.bufferSize ∧
      (rb.copyIn block).writeMirror = rb.writeMirror ∧
      (rb.copyIn block).writeIndex = rb.writeIndex + block.length) ∨
    (rb.bufferSize ≤ rb.writeIndex + block.length ∧
      (rb.copyIn block).writeMirror = !rb.writeMirror ∧
      (rb.copyIn block).writeIndex + rb.bufferSize = rb.writeIndex + block.length) := by
  have hw := h.write_lt
  unfold copyIn
  split
  · rename_i hfits
    refine .inl ⟨by omega, rfl, h.u15_eq ?_⟩
    omega
  · rename_i hwraps
    refine .inr ⟨by omega, rfl, ?_⟩
    have hindex : (rb.copyWrapped block).writeIndex =
        block.length - (rb.bufferSize - rb.writeIndex) := h.u15_eq (by omega)
    rw [hindex]
    omega

/-- The bytes in the buffer, the oldest first. -/
def contents (rb : RtRingbuffer) : List Byte :=
  Ring.contents rb.bufferPtr rb.bufferSize rb.readIndex rb.dataLen

theorem length_contents (rb : RtRingbuffer) : rb.contents.length = rb.dataLen :=
  Ring.length_contents _ _ _ _

/-- A block for which there is room goes behind the data. -/
theorem Ok.copyIn (h : rb.Ok) (hroom : block.length ≤ rb.spaceLen) :
    (rb.copyIn block).Ok ∧ (rb.copyIn block).contents = rb.contents ++ block := by
  have hdata := h.dataLen_eq
  have hdle := h.dataLen_le
  have hw := h.write_lt
  unfold spaceLen at hroom
  have hle : block.length ≤ rb.bufferSize := by omega
  have hwrite := h.copyIn_write hle
  have hmirror : rb.readMirror = (!rb.writeMirror) ↔ rb.readMirror ≠ rb.writeMirror :=
    Bool.eq_not
  have hok : (rb.copyIn block).Ok := by
    refine ⟨?_, ?_, ?_, ?_, fun hm => ?_, fun hm => ?_⟩ <;>
      simp only [copyIn_readMirror, copyIn_readIndex, copyIn_bufferSize] at *
    · exact h.size_pos
    · exact h.size_lt
    · exact h.read_lt
    · obtain ⟨_, -, hi⟩ | ⟨_, -, hi⟩ := hwrite
      · omega
      · omega
    · obtain ⟨_, hm', hi⟩ | ⟨hlong, hm', hi⟩ := hwrite
      · have := h.ahead (hm.trans hm')
        omega
      · have hne := hmirror.mp (hm.trans hm')
        have := h.read_lt
        rw [if_neg hne] at hdata
        omega
    · obtain ⟨_, hm', hi⟩ | ⟨hlong, hm', hi⟩ := hwrite
      · rw [hm'] at hm
        have := h.behind hm
        rw [if_neg hm] at hdata
        omega
      · rw [hm'] at hm
        have heq : rb.readMirror = rb.writeMirror := not_not.mp (mt hmirror.mpr hm)
        have := h.ahead heq
        rw [if_pos heq] at hdata
        omega
  have hlen : (rb.copyIn block).dataLen = rb.dataLen + block.length := by
    have hr := h.read_lt
    rw [hok.dataLen_eq, hdata]
    simp only [copyIn_readMirror, copyIn_readIndex, copyIn_bufferSize]
    obtain ⟨_, hm, hi⟩ | ⟨hlong, hm, hi⟩ := hwrite
    · rw [hm]
      split
      · rename_i heq
        have := h.ahead heq
        omega
      · omega
    · rw [hm]
      by_cases heq : rb.readMirror = rb.writeMirror
      · have := h.ahead heq
        rw [if_neg fun hne => hmirror.mp hne heq, if_pos heq]
        omega
      · rw [if_neg heq] at hdata
        omega
  refine ⟨hok, ?_⟩
  unfold contents
  rw [hlen, copyIn_readIndex, copyIn_bufferSize]
  refine Ring.contents_store (by omega) (fun i hi => ?_) fun j hj => ?_
  · rw [← Nat.mod_add_mod, ← h.write_eq]
    exact copyIn_at hw hle i hi
  · refine copyIn_of_ne hw hle j fun i hi => ?_
    rw [h.write_eq, Nat.mod_add_mod]
    exact hj i hi

/-! ## Reading -/

theorem Ok.copyOut (h : rb.Ok) {n : Nat} (hn : n ≤ rb.dataLen) :
    (rb.copyOut n).1.Ok ∧ (rb.copyOut n).1.contents = rb.contents.drop n ∧
      (rb.copyOut n).1.bufferSize = rb.bufferSize ∧
      (rb.copyOut n).2 = rb.contents.take n := by
  have hdata := h.dataLen_eq
  have hdle := h.dataLen_le
  have hr := h.read_lt
  have hw := h.write_lt
  have hmirror : (!rb.readMirror) = rb.writeMirror ↔ rb.readMirror ≠ rb.writeMirror :=
    Bool.not_eq
  have hsplit : rb.contents = Ring.contents rb.bufferPtr rb.bufferSize rb.readIndex n ++
      Ring.contents rb.bufferPtr rb.bufferSize ((rb.readIndex + n) % rb.bufferSize)
        (rb.dataLen - n) := by
    rw [← Ring.contents_add, Nat.add_sub_cancel' hn]
    rfl
  have hfst := Ring.length_contents rb.bufferPtr rb.bufferSize rb.readIndex n
  rw [hsplit, List.drop_left' hfst, List.take_left' hfst]
  unfold RtRingbuffer.copyOut
  split
  · rename_i hfits
    have hindex : u15 (rb.readIndex + n) = rb.readIndex + n := h.u15_eq (by omega)
    dsimp only
    rw [hindex]
    have hok : Ok { rb with readIndex := rb.readIndex + n } := by
      refine ⟨h.size_pos, h.size_lt, by dsimp only; omega, hw, fun hm => ?_, fun hm => ?_⟩
      · have := h.ahead hm
        rw [if_pos hm] at hdata
        dsimp only
        omega
      · have := h.behind hm
        dsimp only
        omega
    refine ⟨hok, ?_, rfl, slice_eq_contents _ (by omega)⟩
    unfold contents
    rw [hok.dataLen_eq, hdata, Nat.mod_eq_of_lt (by omega)]
    dsimp only
    congr 1
    split
    · omega
    · omega
  · rename_i hwraps
    have hne : rb.readMirror ≠ rb.writeMirror := fun hm => by
      have := h.ahead hm
      rw [if_pos hm] at hdata
      omega
    have hbehind := h.behind hne
    rw [if_neg hne] at hdata
    have hindex : u15 (n - (rb.bufferSize - rb.readIndex)) =
        n - (rb.bufferSize - rb.readIndex) := h.u15_eq (by omega)
    have hmod : (rb.readIndex + n) % rb.bufferSize = n - (rb.bufferSize - rb.readIndex) := by
      rw [Nat.mod_eq_sub_mod (by omega), Nat.mod_eq_of_lt (by omega)]
      omega
    dsimp only
    rw [hindex]
    have hok : Ok { rb with
        readMirror := !rb.readMirror
        readIndex := n - (rb.bufferSize - rb.readIndex) } := by
      refine ⟨h.size_pos, h.size_lt, by dsimp only; omega, hw, fun _ => ?_, fun hm => ?_⟩
      · dsimp only
        omega
      · exact absurd (hmirror.mpr hne) hm
    refine ⟨hok, ?_, rfl, slice_append_slice _ hr (by omega) (by omega)⟩
    unfold contents
    rw [hok.dataLen_eq, hmod]
    dsimp only
    rw [if_pos (hmirror.mpr hne)]
    congr 1
    omega

/-! ## Single bytes -/

theorem memcpy_singleton (pool : Nat → Byte) (start : Nat) (ch : Byte) :
    memcpy pool start [ch] = Function.update pool start ch := by
  funext j
  by_cases hj : j = start
  · subst hj
    have := @memcpy_at pool j [ch] 0 Nat.one_pos
    rw [Function.update_self]
    exact this
  · rw [Function.update_of_ne hj]
    refine memcpy_of_ne pool fun i hi hji => hj ?_
    rw [hji, Nat.lt_one_iff.mp hi, Nat.add_zero]

theorem memcpy_nil (pool : Nat → Byte) (start : Nat) : memcpy pool start [] = pool := by
  funext j
  exact memcpy_of_ne pool fun i hi => absurd hi (Nat.not_lt_zero i)

theorem Ok.advanceWrite_storeChar (h : rb.Ok) (ch : Byte) :
    (rb.storeChar ch).advanceWrite = rb.copyIn [ch] := by
  have hw := h.write_lt
  unfold RtRingbuffer.copyIn advanceWrite storeChar
  dsimp only
  by_cases hlast : rb.writeIndex = rb.bufferSize - 1
  · have hone : rb.bufferSize - rb.writeIndex = 1 := by omega
    have htake : [ch].take 1 = [ch] := rfl
    have hdrop : [ch].drop 1 = [] := rfl
    rw [if_pos hlast, if_neg (by rw [hone]; exact Nat.lt_irrefl 1), copyWrapped, hone, htake,
      hdrop, memcpy_nil, memcpy_singleton]
    rfl
  · rw [if_neg hlast, if_pos (by rw [List.length_singleton]; omega), copyStraight,
      memcpy_singleton]
    rfl

theorem Ok.putchar_eq (h : rb.Ok) (ch : Byte) :
    rb.putchar ch = rb.put (.single ch) := by
  unfold RtRingbuffer.putchar RtRingbuffer.put
  rw [h.u16_spaceLen, h.advanceWrite_storeChar]
  split
  · rfl
  · rename_i hroom
    have hone : [ch].take rb.spaceLen = [ch] :=
      List.take_of_length_le (Nat.one_le_iff_ne_zero.mpr hroom)
    change (rb.copyIn [ch], 1) = (rb.copyIn ([ch].take rb.spaceLen), ([ch].take rb.spaceLen).length)
    rw [hone]
    rfl

theorem Ok.spaceLen_eq_zero (h : rb.Ok) : rb.spaceLen = 0 ↔ rb.status = .full := by
  have hdata := h.dataLen_eq
  have hpos := h.size_pos
  have hr := h.read_lt
  have hw := h.write_lt
  unfold spaceLen status
  by_cases hm : rb.readMirror = rb.writeMirror
  · rw [if_pos hm] at hdata ⊢
    refine ⟨fun hzero => ?_, fun hfull => ?_⟩
    · omega
    · split at hfull
      · cases hfull
      · cases hfull
  · have := h.behind hm
    rw [if_neg hm] at hdata ⊢
    refine ⟨fun hzero => if_pos (by omega), fun hfull => ?_⟩
    split at hfull
    · omega
    · cases hfull

theorem Ok.dataLen_eq_zero (h : rb.Ok) : rb.dataLen = 0 ↔ rb.status = .empty := by
  have hdata := h.dataLen_eq
  have hr := h.read_lt
  unfold status
  by_cases hm : rb.readMirror = rb.writeMirror
  · have := h.ahead hm
    rw [if_pos hm] at hdata ⊢
    refine ⟨fun hzero => if_pos (by omega), fun hempty => ?_⟩
    split at hempty
    · omega
    · cases hempty
  · rw [if_neg hm] at hdata ⊢
    refine ⟨fun hzero => ?_, fun hempty => ?_⟩
    · omega
    · split at hempty
      · cases hempty
      · cases hempty

theorem Ok.putcharForce_eq (h : rb.Ok) (ch : Byte) :
    rb.putcharForce ch = rb.putForce (.single ch) := by
  have hw := h.write_lt
  have hcut : (Block.single ch).bytes.drop ((Block.single ch).bytes.length - rb.bufferSize) =
      [ch] := by
    have hzero : (Block.single ch).bytes.length - rb.bufferSize = 0 :=
      Nat.sub_eq_zero_of_le h.size_pos
    rw [hzero, List.drop_zero]
    rfl
  have hfull : [ch].length > rb.spaceLen ↔ rb.status = .full := by
    rw [← h.spaceLen_eq_zero, List.length_singleton]
    exact Nat.lt_one_iff
  have hcopy := h.advanceWrite_storeChar ch
  unfold RtRingbuffer.copyIn at hcopy
  unfold RtRingbuffer.putcharForce RtRingbuffer.putForce forceIn
  rw [hcut, h.u16_spaceLen, hcopy]
  simp only [hfull]
  by_cases hlast : rb.writeIndex = rb.bufferSize - 1
  · have hwrap : ¬ rb.bufferSize - rb.writeIndex > [ch].length := by
      rw [List.length_singleton]
      omega
    rw [if_pos hlast, if_neg hwrap, if_neg hwrap]
    rfl
  · have hfits : rb.bufferSize - rb.writeIndex > [ch].length := by
      rw [List.length_singleton]
      omega
    rw [if_neg hlast, if_pos hfits, if_pos hfits]
    rfl

theorem Ok.getchar_eq (h : rb.Ok) : rb.getchar = rb.get 1 := by
  have hr := h.read_lt
  have hone : slice rb.bufferPtr rb.readIndex 1 = [rb.bufferPtr rb.readIndex] := rfl
  unfold RtRingbuffer.getchar RtRingbuffer.get RtRingbuffer.copyOut
  split
  · rfl
  · rename_i hdata
    have hnlt : ¬ rb.dataLen < (1 : BitVec 16).toNat := fun hlt => hdata (Nat.lt_one_iff.mp hlt)
    have htoNat : (1 : BitVec 16).toNat = 1 := rfl
    rw [if_neg hnlt, htoNat]
    by_cases hlast : rb.readIndex = rb.bufferSize - 1
    · have hsize : rb.bufferSize - rb.readIndex = 1 := by omega
      rw [if_pos hlast, if_neg (by rw [hsize]; exact Nat.lt_irrefl 1), hsize, hone]
      rfl
    · rw [if_neg hlast, if_pos (by omega), hone]

/-! ## Overwriting -/

theorem Ok.copyIn_writeIndex (h : rb.Ok) (hle : block.length ≤ rb.bufferSize) :
    (rb.copyIn block).writeIndex = (rb.writeIndex + block.length) % rb.bufferSize := by
  have hw := h.write_lt
  obtain ⟨hfits, -, hi⟩ | ⟨_, -, hi⟩ := h.copyIn_write hle
  · rw [hi, Nat.mod_eq_of_lt hfits]
  · rw [← hi, Nat.add_mod_right, Nat.mod_eq_of_lt (by omega)]

theorem Ok.forceIn_of_le (h : rb.Ok) (hle : block.length ≤ rb.spaceLen) :
    rb.forceIn block = rb.copyIn block := by
  unfold RtRingbuffer.forceIn RtRingbuffer.copyIn
  rw [h.u16_spaceLen, if_neg (not_lt.mpr hle), if_neg (not_lt.mpr hle)]

/-- If the mirrors differ, they differ still, at equal indices: the buffer is full. -/
theorem Ok.forceIn_of_ne (h : rb.Ok) (hlt : rb.spaceLen < block.length)
    (hm : rb.readMirror ≠ rb.writeMirror) :
    rb.forceIn block = { rb.copyIn block with
      readMirror := !(rb.copyIn block).writeMirror
      readIndex := (rb.copyIn block).writeIndex } := by
  have hread : rb.readMirror = !rb.writeMirror := Bool.eq_not.mpr hm
  unfold RtRingbuffer.forceIn RtRingbuffer.copyIn
  rw [h.u16_spaceLen, if_pos hlt, if_pos hlt]
  split
  · unfold dropOldest copyStraight
    dsimp only
    rw [hread]
  · unfold dropOldest flipRead copyWrapped
    dsimp only
    rw [hread]

/-- If they are the same, so that the block wraps, they are the same still: the buffer is
empty. -/
theorem Ok.forceIn_of_eq (h : rb.Ok) (hlt : rb.spaceLen < block.length)
    (hm : rb.readMirror = rb.writeMirror) :
    rb.forceIn block = { rb.copyIn block with
      readMirror := (rb.copyIn block).writeMirror
      readIndex := (rb.copyIn block).writeIndex } := by
  have hdata := h.dataLen_eq
  have hw := h.write_lt
  have hahead := h.ahead hm
  rw [if_pos hm] at hdata
  have hwraps : ¬ rb.bufferSize - rb.writeIndex > block.length := by
    unfold spaceLen at hlt
    omega
  unfold RtRingbuffer.forceIn RtRingbuffer.copyIn
  rw [h.u16_spaceLen, if_neg hwraps, if_neg hwraps, if_pos hlt]
  unfold dropOldest flipRead copyWrapped
  dsimp only
  rw [hm]

/-- The block has taken the place of the oldest bytes. -/
theorem Ok.overwrite (h : rb.Ok) (hle : block.length ≤ rb.bufferSize)
    (hlt : rb.spaceLen < block.length) (hm : rb.readMirror ≠ rb.writeMirror) :
    (rb.forceIn block).Ok ∧ (rb.forceIn block).contents =
      rb.contents.drop (rb.dataLen + block.length - rb.bufferSize) ++ block := by
  have hw := h.write_lt
  have hdle := h.dataLen_le
  have hwrite := h.copyIn_writeIndex hle
  have hnew : (rb.copyIn block).writeIndex < rb.bufferSize :=
    hwrite ▸ Nat.mod_lt _ h.size_pos
  have hover : rb.bufferSize < rb.dataLen + block.length := by
    unfold spaceLen at hlt
    omega
  rw [h.forceIn_of_ne hlt hm]
  have hok : Ok { rb.copyIn block with
      readMirror := !(rb.copyIn block).writeMirror
      readIndex := (rb.copyIn block).writeIndex } := by
    refine ⟨?_, ?_, ?_, ?_, fun heq => absurd heq (Bool.not_ne_self _), fun _ => Nat.le_refl _⟩ <;>
      simp only [copyIn_bufferSize] at *
    · exact h.size_pos
    · exact h.size_lt
    · exact hnew
    · exact hnew
  refine ⟨hok, ?_⟩
  -- the data start anew behind the bytes that are lost
  have hold : rb.contents.drop (rb.dataLen + block.length - rb.bufferSize) =
      Ring.contents rb.bufferPtr rb.bufferSize (rb.copyIn block).writeIndex
        (rb.bufferSize - block.length) := by
    have hsplit : rb.dataLen = rb.dataLen + block.length - rb.bufferSize +
        (rb.bufferSize - block.length) := by omega
    have hout : (rb.readIndex + (rb.dataLen + block.length - rb.bufferSize)) % rb.bufferSize =
        (rb.copyIn block).writeIndex := by
      rw [hwrite, h.write_eq, Nat.mod_add_mod, ← Nat.add_mod_right]
      congr 1
      omega
    unfold contents
    nth_rewrite 2 [hsplit]
    rw [Ring.contents_add, List.drop_left' (Ring.length_contents _ _ _ _), hout]
  have hpos : ∀ i, ((rb.copyIn block).writeIndex + (rb.bufferSize - block.length) + i) %
      rb.bufferSize = (rb.writeIndex + i) % rb.bufferSize := by
    intro i
    rw [hwrite, Nat.add_assoc, Nat.mod_add_mod, ← Nat.add_mod_right (rb.writeIndex + i)]
    congr 1
    omega
  have hfull : rb.bufferSize = rb.bufferSize - block.length + block.length := by omega
  unfold contents at hold ⊢
  rw [hok.dataLen_eq, hold]
  dsimp only
  rw [if_neg (Bool.not_ne_self _), copyIn_bufferSize, Nat.add_sub_cancel_left]
  nth_rewrite 2 [hfull]
  refine Ring.contents_store (by omega) (fun i hi => ?_) fun j hj => ?_
  · rw [hpos]
    exact copyIn_at hw hle i hi
  · refine copyIn_of_ne hw hle j fun i hi => ?_
    rw [← hpos]
    exact hj i hi

/-- The block is in the pool, and the buffer is empty. -/
theorem Ok.overtake (h : rb.Ok) (hle : block.length ≤ rb.bufferSize)
    (hlt : rb.spaceLen < block.length) (hm : rb.readMirror = rb.writeMirror) :
    (rb.forceIn block).Ok ∧ (rb.forceIn block).dataLen = 0 := by
  have hnew : (rb.copyIn block).writeIndex < rb.bufferSize :=
    h.copyIn_writeIndex hle ▸ Nat.mod_lt _ h.size_pos
  rw [h.forceIn_of_eq hlt hm]
  have hok : Ok { rb.copyIn block with
      readMirror := (rb.copyIn block).writeMirror
      readIndex := (rb.copyIn block).writeIndex } := by
    refine ⟨?_, ?_, ?_, ?_, fun _ => Nat.le_refl _, fun hne => absurd rfl hne⟩ <;>
      simp only [copyIn_bufferSize] at *
    · exact h.size_pos
    · exact h.size_lt
    · exact hnew
    · exact hnew
  refine ⟨hok, ?_⟩
  rw [hok.dataLen_eq]
  dsimp only
  rw [if_pos rfl, Nat.sub_self]

end RtRingbuffer

end ControlRTT.Drivers.RingBuffer

import ControlRTT.Drivers.RingBlockQueue

/-! # The length of the next queue (ringblk_buf.c)

`rt_rbb_next_blk_queue_len` goes over the list as `rt_rbb_blk_queue_get` does, but takes no block
and knows no limit (`next_len_eq_get`). -/
namespace ControlRTT.Drivers.RingBlock
open ControlRTT.Lib ControlRTT.Lib.CInt ControlRTT.Lib.Extents ControlRTT.Lib.Runs

namespace Rbb
variable (rbb : Rbb)

/-- The loop in `rt_rbb_next_blk_queue_len`, over the nodes from a node on. -/
def nextLoop (dataLen : Nat) (lastBlock : Option Nat) : List Nat → Nat
  | [] => dataLen
  | block :: nodes =>
    match lastBlock with
    | none =>
      if (rbb.blkSet block).status ≠ .put then nextLoop dataLen none nodes
      else nextLoop (u32 (dataLen + (rbb.blkSet block).size)) (some block) nodes
    | some last =>
      if (rbb.blkSet block).status ≠ .put ∨ (rbb.blkSet last).buf > (rbb.blkSet block).buf then
        dataLen
      else nextLoop (u32 (dataLen + (rbb.blkSet block).size)) (some block) nodes

def rtRbbNextBlkQueueLen : Nat :=
  if rbb.blkList.isEmpty then 0 else rbb.nextLoop 0 none rbb.blkList

/-- The sizes of all blocks on a list, not reduced to a word. -/
def listedSize (nodes : List Nat) : Nat := (nodes.map fun i => (rbb.blkSet i).size).sum

end Rbb

section
variable {rbb : Rbb} {queueDataLen : Nat}

theorem listedSize_cons (i : Nat) (nodes : List Nat) :
    rbb.listedSize (i :: nodes) = (rbb.blkSet i).size + rbb.listedSize nodes :=
  List.sum_cons

/-- A limit that is as long as all the blocks, or that no word exceeds, stops nothing. -/
theorem nextLoop_some {total last : Nat} {nodes : List Nat}
    (h : min (total + rbb.listedSize nodes) (2 ^ 32 - 1) ≤ queueDataLen) :
    rbb.nextLoop (u32 total) (some last) nodes =
      rbb.totalSize (u32 total) (rbb.follow queueDataLen (u32 total) last nodes) := by
  induction nodes generalizing total last with
  | nil => rfl
  | cons i nodes ih =>
    have hadd : u32 (u32 total + (rbb.blkSet i).size) = u32 (total + (rbb.blkSet i).size) :=
      Nat.mod_add_mod _ _ _
    rw [listedSize_cons, ← Nat.add_assoc] at h
    have hfit : u32 (total + (rbb.blkSet i).size) ≤ queueDataLen := by
      have hle : u32 (total + (rbb.blkSet i).size) ≤ total + (rbb.blkSet i).size :=
        Nat.mod_le _ _
      have hlt : u32 (total + (rbb.blkSet i).size) < 2 ^ 32 := Nat.mod_lt _ (by decide)
      omega
    unfold Rbb.nextLoop Rbb.follow
    dsimp only
    rw [hadd]
    by_cases hgo : (rbb.blkSet i).status = .put ∧ (rbb.blkSet last).buf ≤ (rbb.blkSet i).buf
    · rw [if_neg (not_or.mpr ⟨not_not.mpr hgo.1, not_lt.mpr hgo.2⟩), if_pos ⟨hgo.1, hgo.2, hfit⟩,
        ih h]
      unfold Rbb.totalSize
      rw [List.foldl_cons, hadd]
    · rw [if_pos, if_neg fun hall => hgo ⟨hall.1, hall.2.1⟩]
      · rfl
      · by_cases hput : (rbb.blkSet i).status = .put
        · exact .inr (not_le.mp fun hle => hgo ⟨hput, hle⟩)
        · exact .inl hput

/-- Up to the first block that is put both loops do nothing. -/
theorem nextLoop_none {nodes : List Nat} (hsize : ∀ i ∈ nodes, (rbb.blkSet i).size < 2 ^ 24)
    (h : min (rbb.listedSize nodes) (2 ^ 32 - 1) ≤ queueDataLen) :
    rbb.nextLoop 0 none nodes = rbb.totalSize 0 (rbb.putRun queueDataLen nodes) := by
  induction nodes with
  | nil => rfl
  | cons i nodes ih =>
    rw [listedSize_cons] at h
    unfold Rbb.nextLoop
    dsimp only
    by_cases hput : (rbb.blkSet i).status = .put
    · have hrun : rbb.putRun queueDataLen (i :: nodes) =
          i :: rbb.follow queueDataLen (rbb.blkSet i).size i nodes := by
        unfold Rbb.putRun
        rw [List.dropWhile_cons_of_neg (by simpa using hput)]
      have hlt := hsize i List.mem_cons_self
      have hword : u32 (rbb.blkSet i).size = (rbb.blkSet i).size := u32_of_lt (by omega)
      have hrest := @nextLoop_some rbb queueDataLen (rbb.blkSet i).size i nodes h
      rw [hword] at hrest
      rw [if_neg (not_not.mpr hput), hrun, Nat.zero_add, hword, hrest]
      unfold Rbb.totalSize
      rw [List.foldl_cons, Nat.zero_add, hword]
    · have hrun : rbb.putRun queueDataLen (i :: nodes) = rbb.putRun queueDataLen nodes := by
        unfold Rbb.putRun
        rw [List.dropWhile_cons_of_pos (by simpa using hput)]
      rw [if_pos hput, hrun]
      exact ih (fun j hj => hsize j (List.mem_cons_of_mem i hj)) (by omega)

theorem nextLen_eq (hs : Sized rbb) (blkQueue : RbbBlkQueue)
    (h : min (rbb.listedSize rbb.blkList) (2 ^ 32 - 1) ≤ queueDataLen) :
    rbb.rtRbbNextBlkQueueLen = (rbb.rtRbbBlkQueueGet queueDataLen blkQueue).2.1 := by
  rw [queueGet_eq hs]
  dsimp only
  rw [← nextLoop_none (fun i hi => hs.size_lt i (hs.live i hi)) h]
  unfold Rbb.rtRbbNextBlkQueueLen
  split
  · rename_i hempty
    rw [List.isEmpty_iff.mp hempty]
    rfl
  · rfl

end

/-- In every state of a run the preview is what the call returns for a limit of all the blocks on
the list, or more, and for the greatest limit in any case. -/
theorem next_len_eq_get (b : Buffer) (blkMaxNum : Nat) (es : List RbbEvent) :
    Throughout step (fun rbb => ∀ queueDataLen blkQueue,
      min (rbb.listedSize rbb.blkList) (2 ^ 32 - 1) ≤ queueDataLen →
      rbb.rtRbbNextBlkQueueLen = (rbb.rtRbbBlkQueueGet queueDataLen blkQueue).2.1)
      (rtRbbInit b blkMaxNum) es := by
  have hstart : Sized (rtRbbInit b blkMaxNum) :=
    ⟨⟨List.nodup_nil, nofun⟩, fun i hi => absurd rfl hi.2⟩
  exact throughout_of_keep (fun _ h _ blkQueue hle => nextLen_eq h blkQueue hle)
    (fun _ _ _ h hstep => h.step hstep) hstart es

/-- The second block lies before the first in memory, and ends the queue. -/
example : ((run step (rtRbbInit ⟨0x20000000, 16, by decide⟩ 2)
    [.alloc 8, .alloc 4, .put 0, .put 1, .get, .free 0, .alloc 8, .put 0]).map fun rbb =>
      (rbb.blkList, rbb.rtRbbNextBlkQueueLen, (rbb.rtRbbBlkQueueGet 12 ⟨0, 0⟩).2.1)) =
    some ([1, 0], 4, 4) := by decide

end ControlRTT.Drivers.RingBlock

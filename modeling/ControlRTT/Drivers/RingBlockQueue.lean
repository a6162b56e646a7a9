import ControlRTT.Drivers.RingBlock

/-! # Queues of blocks (ringblk_buf.c)

`rt_rbb_blk_queue_get` takes a run of blocks off the list and tells them by the first and their
number, as if they stood one behind the other in the array; and it leaves the queue as it was if
there is no block to take (`accounted_iff`). -/
namespace ControlRTT.Drivers.RingBlock
open ControlRTT.Lib ControlRTT.Lib.CInt ControlRTT.Lib.Extents ControlRTT.Lib.Runs

namespace Rbb
variable (rbb : Rbb)

/-- The size of blocks together, in a 32-bit word. -/
def totalSize (total : Nat) (blocks : List Nat) : Nat :=
  blocks.foldl (fun total i => u32 (total + (rbb.blkSet i).size)) total

/-- Here and below `none` is a block that is none. -/
def rtRbbBlkQueueLen (blkQueue : RbbBlkQueue) : Option Nat :=
  if ∀ i ∈ blkQueue.indices, i < rbb.blkMaxNum then some (rbb.totalSize 0 blkQueue.indices)
  else none

def rtRbbBlkQueueBuf (blkQueue : RbbBlkQueue) : Option Nat :=
  if blkQueue.blocks < rbb.blkMaxNum then some (rbb.blkSet blkQueue.blocks).buf else none

end Rbb

/-- Extents one behind the other. -/
def Contiguous (start : Nat) : List Extent → Prop
  | [] => True
  | e :: l => e.start = start ∧ Contiguous e.stop l

/-- A block that a call has got. -/
def Taken (rbb rbb' : Rbb) (i : Nat) : Prop :=
  (rbb.blkSet i).status = .put ∧ (rbb'.blkSet i).status = .get

/-- What a queue has to say of the blocks that were got. Its entries lie one behind the other in
memory in the order in which they stand in the array. -/
structure Accounts (queueDataLen : Nat) (rbb rbb' : Rbb) (size : Nat) (blkQueue : RbbBlkQueue) :
    Prop where
  queueLen : rbb'.rtRbbBlkQueueLen blkQueue = some size
  size_le : size ≤ queueDataLen
  contiguous : ∀ buf, rbb'.rtRbbBlkQueueBuf blkQueue = some buf →
    Contiguous buf (blkQueue.indices.map rbb'.extent)
  frees : ∃ t, rbb'.rtRbbBlkQueueFree blkQueue = some t ∧
    ∀ i, (Taken rbb rbb' i → (t.blkSet i).status = .unused) ∧
      (¬Taken rbb rbb' i → (t.blkSet i).status = (rbb'.blkSet i).status)

/-- The call returns what its queue says. -/
def Accounted (queueDataLen : Nat) (blkQueue : RbbBlkQueue) (rbb : Rbb) : Prop :=
  let r := rbb.rtRbbBlkQueueGet queueDataLen blkQueue
  Accounts queueDataLen rbb r.1 r.2.1 r.2.2

/-! ## The run of blocks that are taken -/

/-- The blocks on a list that follow a block, as far as they are put, do not go back in memory,
and are not too long together. -/
def Rbb.follow (rbb : Rbb) (queueDataLen total last : Nat) : List Nat → List Nat
  | [] => []
  | i :: l =>
    if (rbb.blkSet i).status = .put ∧ (rbb.blkSet last).buf ≤ (rbb.blkSet i).buf ∧
        u32 (total + (rbb.blkSet i).size) ≤ queueDataLen then
      i :: rbb.follow queueDataLen (u32 (total + (rbb.blkSet i).size)) i l
    else []

/-- The first block on a list that is put, and those that follow it. -/
def Rbb.putRun (rbb : Rbb) (queueDataLen : Nat) (nodes : List Nat) : List Nat :=
  match nodes.dropWhile fun i => (rbb.blkSet i).status ≠ .put with
  | [] => []
  | first :: l => first :: rbb.follow queueDataLen (rbb.blkSet first).size first l

/-- The run stands in the array from its first block on, each entry behind the one before it in
memory, and its first block is not too long; if there is none the queue has been empty. -/
def Consecutive (queueDataLen : Nat) (blkQueue : RbbBlkQueue) (rbb : Rbb) : Prop :=
  match rbb.putRun queueDataLen rbb.blkList with
  | [] => blkQueue.blkNum = 0
  | first :: l =>
    (rbb.blkSet first).size ≤ queueDataLen ∧
    (first :: l).Perm (List.range' first (l.length + 1)) ∧
    Contiguous (rbb.blkSet first).buf ((List.range' first (l.length + 1)).map rbb.extent)

/-- The blocks are taken one by one. -/
def Rbb.takeAll (rbb : Rbb) (blocks : List Nat) : Rbb := blocks.foldl Rbb.takeBlk rbb

section
variable {rbb rbb' : Rbb} {queueDataLen : Nat} {blkQueue : RbbBlkQueue} {blocks : List Nat}

theorem status_takeAll (i : Nat) :
    ((rbb.takeAll blocks).blkSet i).status =
      if i ∈ blocks then .get else (rbb.blkSet i).status := by
  induction blocks generalizing rbb with
  | nil => rfl
  | cons j blocks ih =>
    have htake : ((rbb.takeBlk j).blkSet i).status =
        if i = j then .get else (rbb.blkSet i).status := status_setStatus _ _ _ _
    refine ih.trans ?_
    rw [htake]
    by_cases hmem : i ∈ blocks
    · rw [if_pos hmem, if_pos (List.mem_cons_of_mem j hmem)]
    · simp only [List.mem_cons, hmem, or_false, if_false]

theorem extent_takeAll (i : Nat) : (rbb.takeAll blocks).extent i = rbb.extent i := by
  induction blocks generalizing rbb with
  | nil => rfl
  | cons j blocks ih => exact ih.trans (extent_setStatus _ _ _ _)

theorem blkMaxNum_takeAll : (rbb.takeAll blocks).blkMaxNum = rbb.blkMaxNum := by
  induction blocks generalizing rbb with
  | nil => rfl
  | cons j blocks ih => exact ih

theorem totalSize_congr {total : Nat} (h : ∀ i, rbb'.extent i = rbb.extent i) :
    rbb'.totalSize total blocks = rbb.totalSize total blocks := by
  have hsize : ∀ i, (rbb'.blkSet i).size = (rbb.blkSet i).size := fun i =>
    congrArg Extent.len (h i)
  simp only [Rbb.totalSize, hsize]

theorem follow_congr {total last : Nat} {nodes : List Nat}
    (h : ∀ i, rbb'.extent i = rbb.extent i)
    (hstatus : ∀ i ∈ nodes, (rbb'.blkSet i).status = (rbb.blkSet i).status) :
    rbb'.follow queueDataLen total last nodes = rbb.follow queueDataLen total last nodes := by
  have hsize : ∀ i, (rbb'.blkSet i).size = (rbb.blkSet i).size := fun i =>
    congrArg Extent.len (h i)
  have hbuf : ∀ i, (rbb'.blkSet i).buf = (rbb.blkSet i).buf := fun i =>
    congrArg Extent.start (h i)
  induction nodes generalizing total last with
  | nil => rfl
  | cons i nodes ih =>
    have hrest : ∀ total last, rbb'.follow queueDataLen total last nodes =
        rbb.follow queueDataLen total last nodes := fun _ _ =>
      ih fun j hj => hstatus j (List.mem_cons_of_mem i hj)
    simp only [Rbb.follow, hsize, hbuf, hstatus i List.mem_cons_self, hrest]

/-- The loop takes what follows, and counts it. -/
theorem queueLoop_some {total last : Nat} {nodes : List Nat} (hnodup : nodes.Nodup) :
    rbb.queueLoop queueDataLen total (some last) blkQueue nodes =
      (rbb.takeAll (rbb.follow queueDataLen total last nodes),
        rbb.totalSize total (rbb.follow queueDataLen total last nodes),
        { blkQueue with
          blkNum := blkQueue.blkNum + (rbb.follow queueDataLen total last nodes).length }) := by
  induction nodes generalizing rbb total last blkQueue with
  | nil => rfl
  | cons i nodes ih =>
    obtain ⟨hi, hnodes⟩ := List.nodup_cons.mp hnodup
    have hextent : ∀ j, (rbb.takeBlk i).extent j = rbb.extent j := fun j =>
      extent_setStatus _ _ _ _
    unfold Rbb.queueLoop Rbb.follow
    dsimp only
    split
    · rename_i hstop
      rw [if_neg]
      · rfl
      · rintro ⟨hput, hbuf, hfit⟩
        rcases hstop with hstop | hstop | hstop
        · exact hstop hput
        · omega
        · omega
    · rename_i hgo
      simp only [not_or, not_lt, ne_eq, not_not, gt_iff_lt] at hgo
      have hsame : ∀ total last, (rbb.takeBlk i).follow queueDataLen total last nodes =
          rbb.follow queueDataLen total last nodes := fun total last =>
        follow_congr hextent fun j hj => (status_setStatus _ _ _ _).trans
          (if_neg (ne_of_mem_of_not_mem hj hi))
      rw [if_pos hgo, ih hnodes, hsame, totalSize_congr hextent, List.length_cons]
      simp only [Rbb.takeAll, Rbb.totalSize, List.foldl_cons, Nat.add_assoc, Nat.add_comm 1]

/-- What the queue is in the end. -/
def RbbBlkQueue.of (blkQueue : RbbBlkQueue) : List Nat → RbbBlkQueue
  | [] => blkQueue
  | first :: l => { blocks := first, blkNum := l.length + 1 }

theorem queueLoop_none {nodes : List Nat} (hnodup : nodes.Nodup)
    (hsize : ∀ i ∈ nodes, (rbb.blkSet i).size < 2 ^ 24) :
    rbb.queueLoop queueDataLen 0 none blkQueue nodes =
      (rbb.takeAll (rbb.putRun queueDataLen nodes),
        rbb.totalSize 0 (rbb.putRun queueDataLen nodes),
        blkQueue.of (rbb.putRun queueDataLen nodes)) := by
  induction nodes with
  | nil => rfl
  | cons i nodes ih =>
    obtain ⟨hi, hnodes⟩ := List.nodup_cons.mp hnodup
    by_cases hput : (rbb.blkSet i).status = .put
    · have hextent : ∀ j, (rbb.takeBlk i).extent j = rbb.extent j := fun j =>
        extent_setStatus _ _ _ _
      have hlt := hsize i List.mem_cons_self
      have htotal : u32 (0 + (rbb.blkSet i).size) = (rbb.blkSet i).size := by
        rw [Nat.zero_add, u32_of_lt (by omega)]
      have hrun : rbb.putRun queueDataLen (i :: nodes) =
          i :: rbb.follow queueDataLen (rbb.blkSet i).size i nodes := by
        unfold Rbb.putRun
        rw [List.dropWhile_cons_of_neg (by simpa using hput)]
      have hsame : (rbb.takeBlk i).follow queueDataLen (rbb.blkSet i).size i nodes =
          rbb.follow queueDataLen (rbb.blkSet i).size i nodes :=
        follow_congr hextent fun j hj => (status_setStatus _ _ _ _).trans
          (if_neg (ne_of_mem_of_not_mem hj hi))
      unfold Rbb.queueLoop
      dsimp only
      rw [if_pos hput, htotal, queueLoop_some hnodes, hsame, totalSize_congr hextent, hrun]
      simp only [Rbb.takeAll, Rbb.totalSize, List.foldl_cons, htotal, RbbBlkQueue.of,
        Nat.add_comm 1]
    · have hrun : rbb.putRun queueDataLen (i :: nodes) = rbb.putRun queueDataLen nodes := by
        unfold Rbb.putRun
        rw [List.dropWhile_cons_of_pos (by simpa using hput)]
      unfold Rbb.queueLoop
      dsimp only
      rw [if_neg hput, hrun]
      exact ih hnodes fun j hj => hsize j (List.mem_cons_of_mem i hj)

/-- A block that is in use has a size of 24 bits. -/
structure Sized (rbb : Rbb) : Prop extends Listed rbb where
  size_lt : ∀ i, rbb.Live i → (rbb.extent i).len < 2 ^ 24

/-- What the call does. -/
theorem queueGet_eq (h : Sized rbb) :
    rbb.rtRbbBlkQueueGet queueDataLen blkQueue =
      (rbb.takeAll (rbb.putRun queueDataLen rbb.blkList),
        rbb.totalSize 0 (rbb.putRun queueDataLen rbb.blkList),
        blkQueue.of (rbb.putRun queueDataLen rbb.blkList)) := by
  unfold Rbb.rtRbbBlkQueueGet
  split
  · rename_i hempty
    rw [List.isEmpty_iff.mp hempty]
    rfl
  · exact queueLoop_none h.nodup fun i hi => h.size_lt i (h.live i hi)

theorem follow_subset {total last : Nat} {nodes : List Nat} :
    (rbb.follow queueDataLen total last nodes).Sublist nodes ∧
      ∀ i ∈ rbb.follow queueDataLen total last nodes, (rbb.blkSet i).status = .put := by
  induction nodes generalizing total last with
  | nil => exact ⟨List.Sublist.refl _, nofun⟩
  | cons i nodes ih =>
    unfold Rbb.follow
    split
    · rename_i hput
      obtain ⟨hsub, hall⟩ := @ih (u32 (total + (rbb.blkSet i).size)) i
      exact ⟨hsub.cons_cons i, List.forall_mem_cons.mpr ⟨hput.1, hall⟩⟩
    · exact ⟨List.nil_sublist _, nofun⟩

/-- The run is a part of the list, and all its blocks are put. -/
theorem putRun_subset (nodes : List Nat) :
    (rbb.putRun queueDataLen nodes).Sublist nodes ∧
      ∀ i ∈ rbb.putRun queueDataLen nodes, (rbb.blkSet i).status = .put := by
  unfold Rbb.putRun
  split
  · exact ⟨List.nil_sublist _, nofun⟩
  · rename_i first l hdrop
    obtain ⟨hsub, hall⟩ :=
      @follow_subset rbb queueDataLen (rbb.blkSet first).size first l
    refine ⟨(hsub.cons_cons first).trans (hdrop ▸ List.dropWhile_sublist _),
      List.forall_mem_cons.mpr ⟨?_, hall⟩⟩
    have hhead := List.head?_dropWhile_not (fun i => decide ((rbb.blkSet i).status ≠ .put)) nodes
    rw [hdrop] at hhead
    simpa using hhead

/-- The blocks of the run, and no others, are taken. -/
theorem taken_iff (i : Nat) :
    Taken rbb (rbb.takeAll (rbb.putRun queueDataLen rbb.blkList)) i ↔
      i ∈ rbb.putRun queueDataLen rbb.blkList := by
  unfold Taken
  rw [status_takeAll]
  by_cases hi : i ∈ rbb.putRun queueDataLen rbb.blkList
  · rw [if_pos hi]
    exact iff_of_true ⟨(putRun_subset _).2 i hi, rfl⟩ hi
  · rw [if_neg hi]
    refine iff_of_false ?_ hi
    rintro ⟨hput, hget⟩
    rw [hput] at hget
    cases hget

/-! ## What a queue frees -/

theorem status_free {block : Nat} (hfree : rbb.rtRbbBlkFree block = some rbb') (i : Nat) :
    (rbb'.blkSet i).status = if i = block then .unused else (rbb.blkSet i).status := by
  obtain ⟨-, heq⟩ := Option.ite_none_right_eq_some.mp hfree
  obtain rfl := Option.some.inj heq
  exact status_setStatus _ _ _ _

theorem blkMaxNum_free {block : Nat} (hfree : rbb.rtRbbBlkFree block = some rbb') :
    rbb'.blkMaxNum = rbb.blkMaxNum := by
  obtain ⟨-, heq⟩ := Option.ite_none_right_eq_some.mp hfree
  obtain rfl := Option.some.inj heq
  rfl

theorem status_foldl_free (hfree : blocks.foldlM Rbb.rtRbbBlkFree rbb = some rbb') (i : Nat) :
    (rbb'.blkSet i).status = if i ∈ blocks then .unused else (rbb.blkSet i).status := by
  induction blocks generalizing rbb with
  | nil =>
    obtain rfl := Option.some.inj hfree
    rfl
  | cons j blocks ih =>
    obtain ⟨rbb₁, hfirst, hrest⟩ := Option.bind_eq_some_iff.mp hfree
    rw [ih hrest, status_free hfirst]
    by_cases hmem : i ∈ blocks
    · rw [if_pos hmem, if_pos (List.mem_cons_of_mem j hmem)]
    · simp only [List.mem_cons, hmem, or_false, if_false]

/-- All blocks of a list can be freed exactly if they are different and in use. -/
theorem foldl_free_iff (hnodup : blocks.Nodup) :
    (∃ t, blocks.foldlM Rbb.rtRbbBlkFree rbb = some t) ↔ ∀ i ∈ blocks, rbb.Live i := by
  induction blocks generalizing rbb with
  | nil => exact iff_of_true ⟨rbb, rfl⟩ nofun
  | cons j blocks ih =>
    obtain ⟨hj, hnodup⟩ := List.nodup_cons.mp hnodup
    have hlater : ∀ rbb₁, rbb.rtRbbBlkFree j = some rbb₁ → ∀ i ∈ blocks,
        (rbb₁.Live i ↔ rbb.Live i) := fun rbb₁ hfree i hi => by
      unfold Rbb.Live
      rw [status_free hfree, blkMaxNum_free hfree, if_neg (ne_of_mem_of_not_mem hi hj)]
    constructor
    · rintro ⟨t, ht⟩
      obtain ⟨rbb₁, hfirst, hrest⟩ := Option.bind_eq_some_iff.mp ht
      have hlive := (Option.ite_none_right_eq_some.mp hfirst).1
      exact List.forall_mem_cons.mpr ⟨hlive, fun i hi =>
        (hlater rbb₁ hfirst i hi).mp ((ih hnodup).mp ⟨t, hrest⟩ i hi)⟩
    · intro h
      obtain ⟨hfirst, hrest⟩ := List.forall_mem_cons.mp h
      have hfree : rbb.rtRbbBlkFree j = some _ := if_pos hfirst
      obtain ⟨t, ht⟩ := (ih hnodup).mpr fun i hi => (hlater _ hfree i hi).mpr (hrest i hi)
      exact ⟨t, Option.bind_eq_some_iff.mpr ⟨_, hfree, ht⟩⟩

/-- A queue frees the blocks that were taken, and no others, exactly if they are its blocks. -/
theorem frees_iff {q : RbbBlkQueue} (h : Listed rbb) :
    (∃ t, (rbb.takeAll (rbb.putRun queueDataLen rbb.blkList)).rtRbbBlkQueueFree q = some t ∧
      ∀ i, (Taken rbb (rbb.takeAll (rbb.putRun queueDataLen rbb.blkList)) i →
          (t.blkSet i).status = .unused) ∧
        (¬Taken rbb (rbb.takeAll (rbb.putRun queueDataLen rbb.blkList)) i →
          (t.blkSet i).status =
            ((rbb.takeAll (rbb.putRun queueDataLen rbb.blkList)).blkSet i).status)) ↔
      (rbb.putRun queueDataLen rbb.blkList).Perm q.indices := by
  simp only [taken_iff]
  have hindices : q.indices.Nodup := List.nodup_range'
  obtain ⟨hsub, -⟩ := @putRun_subset rbb queueDataLen rbb.blkList
  generalize rbb.putRun queueDataLen rbb.blkList = blocks at hsub
  constructor
  · rintro ⟨t, ht, hall⟩
    have hlive := (foldl_free_iff hindices).mp ⟨t, ht⟩
    refine (List.perm_ext_iff_of_nodup (h.nodup.sublist hsub) hindices).mpr fun i => ?_
    have hstatus := status_foldl_free ht i
    constructor
    · intro hi
      by_contra hnot
      rw [(hall i).1 hi, if_neg hnot, status_takeAll, if_pos hi] at hstatus
      cases hstatus
    · intro hi
      by_contra hnot
      rw [(hall i).2 hnot, if_pos hi] at hstatus
      exact (hlive i hi).2 hstatus
  · intro hperm
    have hlive : ∀ i ∈ q.indices, (rbb.takeAll blocks).Live i := fun i hi => by
      have hmem := hperm.mem_iff.mpr hi
      refine ⟨?_, by rw [status_takeAll, if_pos hmem]; nofun⟩
      rw [blkMaxNum_takeAll]
      exact (h.live i (hsub.subset hmem)).1
    obtain ⟨t, ht⟩ := (foldl_free_iff hindices).mpr hlive
    refine ⟨t, ht, fun i => ?_⟩
    rw [status_foldl_free ht]
    exact ⟨fun hi => if_pos (hperm.mem_iff.mp hi), fun hi => if_neg (mt hperm.mem_iff.mpr hi)⟩

/-! ## The account -/

theorem totalSize_eq (total : Nat) :
    rbb.totalSize (u32 total) blocks =
      u32 (total + (blocks.map fun i => (rbb.blkSet i).size).sum) := by
  induction blocks generalizing total with
  | nil => rfl
  | cons i blocks ih =>
    have hadd : u32 (u32 total + (rbb.blkSet i).size) = u32 (total + (rbb.blkSet i).size) :=
      Nat.mod_add_mod _ _ _
    unfold Rbb.totalSize at ih ⊢
    rw [List.foldl_cons, hadd, ih, List.map_cons, List.sum_cons, Nat.add_assoc]

theorem totalSize_perm {blocks' : List Nat} (h : blocks.Perm blocks') :
    rbb.totalSize 0 blocks = rbb.totalSize 0 blocks' := by
  have hzero : u32 0 = 0 := rfl
  rw [← hzero, totalSize_eq, totalSize_eq, (h.map _).sum_nat]

/-- What follows keeps to the length. -/
theorem totalSize_follow_le {total last : Nat} {nodes : List Nat}
    (hne : rbb.follow queueDataLen total last nodes ≠ []) :
    rbb.totalSize total (rbb.follow queueDataLen total last nodes) ≤ queueDataLen ∧
      ∃ i ∈ nodes, u32 (total + (rbb.blkSet i).size) ≤ queueDataLen := by
  induction nodes generalizing total last with
  | nil => exact absurd rfl hne
  | cons i nodes ih =>
    unfold Rbb.follow at hne ⊢
    split
    · rename_i hput
      refine ⟨?_, i, List.mem_cons_self, hput.2.2⟩
      by_cases hnil : rbb.follow queueDataLen (u32 (total + (rbb.blkSet i).size)) i nodes = []
      · rw [hnil]
        exact hput.2.2
      · exact (ih hnil).1
    · rename_i hstop
      rw [if_neg hstop] at hne
      exact absurd rfl hne

/-- The sizes keep to the length exactly if that of the first block does. -/
theorem totalSize_le_iff {first : Nat} {nodes : List Nat}
    (hfirst : (rbb.blkSet first).size < 2 ^ 24)
    (hsize : ∀ i ∈ nodes, (rbb.blkSet i).size < 2 ^ 24) :
    rbb.totalSize 0 (first :: rbb.follow queueDataLen (rbb.blkSet first).size first nodes) ≤
      queueDataLen ↔ (rbb.blkSet first).size ≤ queueDataLen := by
  have htotal : rbb.totalSize 0
      (first :: rbb.follow queueDataLen (rbb.blkSet first).size first nodes) =
      rbb.totalSize (rbb.blkSet first).size
        (rbb.follow queueDataLen (rbb.blkSet first).size first nodes) := by
    unfold Rbb.totalSize
    rw [List.foldl_cons, Nat.zero_add, u32_of_lt (by omega)]
  rw [htotal]
  by_cases hnil : rbb.follow queueDataLen (rbb.blkSet first).size first nodes = []
  · rw [hnil]
    exact Iff.rfl
  · obtain ⟨hle, i, hi, hfit⟩ := totalSize_follow_le hnil
    have hlt := hsize i hi
    rw [u32_of_lt (by omega)] at hfit
    exact iff_of_true hle (by omega)

/-- Where the run comes from. -/
theorem putRun_cons {first : Nat} {l nodes : List Nat}
    (h : rbb.putRun queueDataLen nodes = first :: l) :
    ∃ tail, (first :: tail).Sublist nodes ∧
      l = rbb.follow queueDataLen (rbb.blkSet first).size first tail := by
  unfold Rbb.putRun at h
  split at h
  · cases h
  · rename_i head tail hdrop
    obtain ⟨rfl, rfl⟩ := List.cons.inj h
    exact ⟨tail, hdrop ▸ List.dropWhile_sublist _, rfl⟩

theorem accounted_iff_consecutive (h : Sized rbb) :
    Accounted queueDataLen blkQueue rbb ↔ Consecutive queueDataLen blkQueue rbb := by
  have hfrees := fun q => @frees_iff rbb queueDataLen q h.toListed
  obtain ⟨hsub, -⟩ := @putRun_subset rbb queueDataLen rbb.blkList
  unfold Accounted Consecutive
  rw [queueGet_eq h]
  dsimp only
  cases hrun : rbb.putRun queueDataLen rbb.blkList with
  | nil =>
    rw [hrun] at hfrees
    have hnil : ([] : List Nat).Perm blkQueue.indices ↔ blkQueue.blkNum = 0 := by
      rw [List.nil_perm, RbbBlkQueue.indices, List.range'_eq_nil_iff]
    refine ⟨fun hacc => hnil.mp ((hfrees _).mp hacc.frees), fun hzero => ?_⟩
    have hindices := List.nil_perm.mp (hnil.mpr hzero)
    refine ⟨?_, Nat.zero_le _, fun _ _ => ?_, (hfrees _).mpr (hnil.mpr hzero)⟩
    · unfold Rbb.rtRbbBlkQueueLen RbbBlkQueue.of
      rw [hindices]
      rfl
    · unfold RbbBlkQueue.of
      rw [hindices]
      trivial
  | cons first l =>
    rw [hrun] at hfrees hsub
    obtain ⟨tail, htail, rfl⟩ := putRun_cons hrun
    have hsize : ∀ i ∈ first :: tail, (rbb.blkSet i).size < 2 ^ 24 := fun i hi =>
      h.size_lt i (h.live i (htail.subset hi))
    obtain ⟨hfirst, hrest⟩ := List.forall_mem_cons.mp hsize
    have hlive : ∀ i ∈ first :: rbb.follow queueDataLen (rbb.blkSet first).size first tail,
        i < rbb.blkMaxNum := fun i hi => (h.live i (hsub.subset hi)).1
    have hext : ∀ blocks, (rbb.takeAll blocks).extent = rbb.extent := fun _ =>
      funext extent_takeAll
    constructor
    · rintro ⟨-, hle, hcont, hfree⟩
      refine ⟨(totalSize_le_iff hfirst hrest).mp hle, (hfrees _).mp hfree, ?_⟩
      rw [hext] at hcont
      refine hcont _ ?_
      unfold Rbb.rtRbbBlkQueueBuf RbbBlkQueue.of
      rw [blkMaxNum_takeAll, if_pos (hlive first List.mem_cons_self)]
      exact congrArg (fun e => some e.start) (extent_takeAll first)
    · rintro ⟨hle, hperm, hcont⟩
      refine ⟨?_, (totalSize_le_iff hfirst hrest).mpr hle, fun buf hbuf => ?_, (hfrees _).mpr hperm⟩
      · unfold Rbb.rtRbbBlkQueueLen
        rw [if_pos, totalSize_congr extent_takeAll]
        · exact congrArg some (totalSize_perm hperm).symm
        · rw [blkMaxNum_takeAll]
          exact fun i hi => hlive i (hperm.mem_iff.mpr hi)
      · unfold Rbb.rtRbbBlkQueueBuf RbbBlkQueue.of at hbuf
        rw [blkMaxNum_takeAll, if_pos (hlive first List.mem_cons_self)] at hbuf
        obtain rfl := Option.some.inj hbuf
        rw [hext]
        have hstart : ((rbb.takeAll (first :: rbb.follow queueDataLen (rbb.blkSet first).size first
            tail)).blkSet first).buf = (rbb.blkSet first).buf :=
          congrArg Extent.start (extent_takeAll first)
        rw [hstart]
        exact hcont

theorem Sized.shrink (h : Sized rbb) (hs : Shrinks rbb rbb') : Sized rbb' :=
  ⟨hs.listed, fun i hi => hs.extent i ▸ h.size_lt i (hs.live i hi)⟩

theorem Sized.step {e : RbbEvent} (h : Sized rbb) (hstep : step rbb e = some rbb') :
    Sized rbb' := by
  by_cases he : ∃ blkSize, e = .alloc blkSize
  · obtain ⟨blkSize, rfl⟩ := he
    have hlt : blkSize < 2 ^ 24 := by
      obtain ⟨r, halloc, -⟩ := Option.map_eq_some_iff.mp hstep
      exact (Option.ite_none_right_eq_some.mp halloc).1
    rcases alloc_cases h.toListed hstep with ⟨rfl, -⟩ | ⟨new, buf, hnew, hunused, -, rfl⟩
    · exact h
    · refine ⟨h.toListed.append hnew hunused, fun i hi => ?_⟩
      rw [live_append hnew] at hi
      rw [extent_append]
      by_cases heq : i = new
      · rwa [if_pos heq]
      · rw [if_neg heq]
        exact h.size_lt i (hi.resolve_left heq)
  · exact h.shrink (.step h.toListed hstep fun blkSize heq => he ⟨blkSize, heq⟩)

end

/-- In every state of a run the call returns what its queue says exactly if the blocks that it
takes stand one behind the other, in the array as in memory, and the first is not too long. -/
theorem accounted_iff (b : Buffer) (blkMaxNum : Nat) (es : List RbbEvent) :
    Throughout step (fun rbb => ∀ queueDataLen blkQueue,
      Accounted queueDataLen blkQueue rbb ↔ Consecutive queueDataLen blkQueue rbb)
      (rtRbbInit b blkMaxNum) es := by
  have hstart : Sized (rtRbbInit b blkMaxNum) :=
    ⟨⟨List.nodup_nil, nofun⟩, fun i hi => absurd rfl hi.2⟩
  exact throughout_of_keep (fun _ h _ _ => accounted_iff_consecutive h)
    (fun _ _ _ h hstep => h.step hstep) hstart es

/-- A block of eight bytes is got where four were asked for at most. -/
theorem first_block_too_long :
    ¬Throughout step (fun rbb => ∀ queueDataLen blkQueue, Accounted queueDataLen blkQueue rbb)
      (rtRbbInit ⟨0x20000000, 16, by decide⟩ 1) [.alloc 8, .put 0] := by
  intro h
  have hrun : ((run step (rtRbbInit ⟨0x20000000, 16, by decide⟩ 1) [.alloc 8, .put 0]).map
      fun rbb => (rbb.rtRbbBlkQueueGet 4 ⟨0, 0⟩).2.1) = some 8 := by decide
  obtain ⟨rbb, hrbb, heq⟩ := Option.map_eq_some_iff.mp hrun
  have hle := (h.last hrbb 4 ⟨0, 0⟩).size_le
  rw [heq] at hle
  exact absurd hle (by decide)

end ControlRTT.Drivers.RingBlock

import ControlRTT.Lib.CInt
import ControlRTT.Lib.Runs
import ControlRTT.Lib.RingLayout
import Mathlib.Logic.Function.Basic
import Mathlib.Data.List.Perm.Subperm
import Mathlib.Data.List.Nodup

/-! # The ring of blocks (ringblk_buf.c)

A block that is got from the queue of all blocks stays listed until it is freed, one that is got
with others by `rt_rbb_blk_queue_get` does not, and the room it takes up is given away again
(`regions_disjoint_iff`). -/
namespace ControlRTT.Drivers.RingBlock
open ControlRTT.Lib ControlRTT.Lib.CInt ControlRTT.Lib.Extents ControlRTT.Lib.Runs

inductive RbbStatus where
  | unused | inited | put | get
  deriving DecidableEq, Repr

/-- `struct rt_rbb_blk`, less its link. -/
structure RbbBlk where
  status : RbbStatus := .unused
  size : Nat := 0
  buf : Nat := 0
  deriving DecidableEq, Repr

/-- `struct rt_rbb`. A block is its index in `blk_set`, a buffer its address. -/
structure Rbb where
  buf : Nat
  bufSize : Nat
  blkMaxNum : Nat
  blkSet : Nat → RbbBlk := fun _ => {}
  blkList : List Nat := []

/-- `struct rt_rbb_blk_queue` -/
structure RbbBlkQueue where
  blocks : Nat
  blkNum : Nat
  deriving DecidableEq, Repr

/-- The blocks of a queue. -/
def RbbBlkQueue.indices (blkQueue : RbbBlkQueue) : List Nat :=
  List.range' blkQueue.blocks blkQueue.blkNum

namespace Rbb
variable (rbb : Rbb)

def setStatus (i : Nat) (status : RbbStatus) : Rbb :=
  { rbb with blkSet := Function.update rbb.blkSet i { rbb.blkSet i with status := status } }

def findEmptyBlkInSet : Option Nat :=
  (List.range rbb.blkMaxNum).find? fun i => (rbb.blkSet i).status = .unused

/-- The new block is appended to the list. -/
def append (new buf blkSize : Nat) : Rbb :=
  { rbb with
    blkSet := Function.update rbb.blkSet new { status := .inited, size := blkSize, buf := buf }
    blkList := rbb.blkList ++ [new] }

/-- Where `rt_rbb_blk_alloc` puts a block. -/
def allocBuf (blkSize : Nat) : Option Nat :=
  match rbb.blkList with
  | [] => some rbb.buf
  | i :: l =>
    let head := rbb.blkSet i
    let tail := rbb.blkSet ((i :: l).getLast (List.cons_ne_nil i l))
    if head.buf ≤ tail.buf then
      let empty1 := usub (u32 (rbb.buf + rbb.bufSize)) (u32 (tail.buf + tail.size))
      let empty2 := usub head.buf rbb.buf
      if empty1 ≥ blkSize then some (u32 (tail.buf + tail.size))
      else if empty2 ≥ blkSize then some rbb.buf
      else none
    else
      let empty1 := usub head.buf (u32 (tail.buf + tail.size))
      if empty1 ≥ blkSize then some (u32 (tail.buf + tail.size)) else none

/-- Here and below the outer `none` is an assertion that fails, or a block that is none. -/
def rtRbbBlkAlloc (blkSize : Nat) : Option (Rbb × Option Nat) :=
  if blkSize < 2 ^ 24 then
    match rbb.findEmptyBlkInSet with
    | none => some (rbb, none)
    | some new =>
      if rbb.blkList.length < rbb.blkMaxNum then
        match rbb.allocBuf blkSize with
        | none => some (rbb, none)
        | some buf => some (rbb.append new buf blkSize, some new)
      else some (rbb, none)
  else none

def rtRbbBlkPut (block : Nat) : Option Rbb :=
  if block < rbb.blkMaxNum ∧ (rbb.blkSet block).status = .inited then
    some (rbb.setStatus block .put)
  else none

def rtRbbBlkGet : Rbb × Option Nat :=
  match rbb.blkList.find? fun i => (rbb.blkSet i).status = .put with
  | none => (rbb, none)
  | some block => (rbb.setStatus block .get, some block)

def rtRbbBlkFree (block : Nat) : Option Rbb :=
  if block < rbb.blkMaxNum ∧ (rbb.blkSet block).status ≠ .unused then
    some ({ rbb with blkList := rbb.blkList.erase block }.setStatus block .unused)
  else none

/-- The end of a turn of the loop in `rt_rbb_blk_queue_get`. -/
def takeBlk (block : Nat) : Rbb :=
  { rbb with blkList := rbb.blkList.erase block }.setStatus block .get

/-- The loop in `rt_rbb_blk_queue_get`, over the nodes from a node on. -/
def queueLoop (rbb : Rbb) (queueDataLen : Nat) (dataTotalSize : Nat) (lastBlock : Option Nat)
    (blkQueue : RbbBlkQueue) : List Nat → Rbb × Nat × RbbBlkQueue
  | [] => (rbb, dataTotalSize, blkQueue)
  | block :: nodes =>
    match lastBlock with
    | none =>
      if (rbb.blkSet block).status = .put then
        queueLoop (rbb.takeBlk block) queueDataLen
          (u32 (dataTotalSize + (rbb.blkSet block).size)) (some block)
          { blocks := block, blkNum := 1 } nodes
      else queueLoop rbb queueDataLen dataTotalSize none blkQueue nodes
    | some last =>
      if (rbb.blkSet block).status ≠ .put ∨ (rbb.blkSet last).buf > (rbb.blkSet block).buf ∨
          u32 (dataTotalSize + (rbb.blkSet block).size) > queueDataLen then
        (rbb, dataTotalSize, blkQueue)
      else
        queueLoop (rbb.takeBlk block) queueDataLen
          (u32 (dataTotalSize + (rbb.blkSet block).size)) (some block)
          { blkQueue with blkNum := blkQueue.blkNum + 1 } nodes

def rtRbbBlkQueueGet (queueDataLen : Nat) (blkQueue : RbbBlkQueue) : Rbb × Nat × RbbBlkQueue :=
  if rbb.blkList.isEmpty then (rbb, 0, blkQueue)
  else rbb.queueLoop queueDataLen 0 none blkQueue rbb.blkList

def rtRbbBlkQueueFree (blkQueue : RbbBlkQueue) : Option Rbb :=
  blkQueue.indices.foldlM rtRbbBlkFree rbb

end Rbb

/-- A buffer in memory. -/
structure Buffer where
  addr : Nat
  size : Nat
  fits : addr + size < 2 ^ 32

/-- `rt_rbb_init` -/
def rtRbbInit (b : Buffer) (blkMaxNum : Nat) : Rbb :=
  { buf := b.addr, bufSize := b.size, blkMaxNum := blkMaxNum }

inductive RbbEvent where
  | alloc (blkSize : Nat)
  | put (block : Nat)
  | get
  | free (block : Nat)
  | queueGet (queueDataLen : Nat) (blkQueue : RbbBlkQueue)
  | queueFree (blkQueue : RbbBlkQueue)

def step (rbb : Rbb) : RbbEvent → Option Rbb
  | .alloc blkSize => (rbb.rtRbbBlkAlloc blkSize).map Prod.fst
  | .put block => rbb.rtRbbBlkPut block
  | .get => some rbb.rtRbbBlkGet.1
  | .free block => rbb.rtRbbBlkFree block
  | .queueGet queueDataLen blkQueue => some (rbb.rtRbbBlkQueueGet queueDataLen blkQueue).1
  | .queueFree blkQueue => rbb.rtRbbBlkQueueFree blkQueue

/-! ## Regions -/

/-- A block that is not free. -/
def Rbb.Live (rbb : Rbb) (i : Nat) : Prop :=
  i < rbb.blkMaxNum ∧ (rbb.blkSet i).status ≠ .unused

def Rbb.extent (rbb : Rbb) (i : Nat) : Extent := ⟨(rbb.blkSet i).buf, (rbb.blkSet i).size⟩

/-- The regions of the blocks that are not free lie in the buffer, and apart. -/
structure Regions (rbb : Rbb) : Prop where
  apart : ∀ i j, rbb.Live i → rbb.Live j → i ≠ j → (rbb.extent i).Apart (rbb.extent j)
  inside : ∀ i, rbb.Live i →
    rbb.buf ≤ (rbb.extent i).start ∧ (rbb.extent i).stop ≤ rbb.buf + rbb.bufSize

/-- Where the listed blocks leave room, no other block that is not free is in the way; if none is
listed the size is no more than that of the buffer. -/
def RoomIsFree (rbb : Rbb) : RbbEvent → Prop
  | .alloc blkSize => (∃ i < rbb.blkMaxNum, (rbb.blkSet i).status = .unused) →
      (rbb.blkList = [] → blkSize ≤ rbb.bufSize) ∧
      ∀ start, RingLayout.room rbb.buf (rbb.buf + rbb.bufSize) blkSize
        (rbb.blkList.map rbb.extent) = some start →
        ∀ i, rbb.Live i → i ∉ rbb.blkList → (rbb.extent i).Apart ⟨start, blkSize⟩
  | _ => True

/-- The list: each block once, and none that is free. -/
structure Listed (rbb : Rbb) : Prop where
  nodup : rbb.blkList.Nodup
  live : ∀ i ∈ rbb.blkList, rbb.Live i

/-- No block moves, and none comes to be in use or on the list. -/
structure Shrinks (rbb rbb' : Rbb) : Prop where
  buf : rbb'.buf = rbb.buf
  bufSize : rbb'.bufSize = rbb.bufSize
  extent : ∀ i, rbb'.extent i = rbb.extent i
  live : ∀ i, rbb'.Live i → rbb.Live i
  sublist : rbb'.blkList.Sublist rbb.blkList
  listed : Listed rbb'

section
variable {rbb rbb' rbb'' : Rbb} {block : Nat}

theorem Shrinks.refl (h : Listed rbb) : Shrinks rbb rbb :=
  ⟨rfl, rfl, fun _ => rfl, fun _ h => h, List.Sublist.refl _, h⟩

theorem Shrinks.trans (h : Shrinks rbb rbb') (h' : Shrinks rbb' rbb'') : Shrinks rbb rbb'' :=
  ⟨h'.buf.trans h.buf, h'.bufSize.trans h.bufSize, fun i => (h'.extent i).trans (h.extent i),
    fun i hi => h.live i (h'.live i hi), h'.sublist.trans h.sublist, h'.listed⟩

theorem extent_setStatus (rbb : Rbb) (i j : Nat) (status : RbbStatus) :
    (rbb.setStatus i status).extent j = rbb.extent j := by
  by_cases hj : j = i
  · subst hj
    simp [Rbb.extent, Rbb.setStatus]
  · simp [Rbb.extent, Rbb.setStatus, hj]

theorem status_setStatus (rbb : Rbb) (i j : Nat) (status : RbbStatus) :
    ((rbb.setStatus i status).blkSet j).status =
      if j = i then status else (rbb.blkSet j).status := by
  by_cases hj : j = i
  · subst hj
    simp [Rbb.setStatus]
  · simp [Rbb.setStatus, hj]

/-- A block that is in use gets another status. -/
theorem live_setStatus (hlive : rbb.Live block) {status : RbbStatus} (hstatus : status ≠ .unused)
    (i : Nat) : (rbb.setStatus block status).Live i ↔ rbb.Live i := by
  unfold Rbb.Live
  rw [status_setStatus]
  split
  · rename_i hi
    subst hi
    exact ⟨fun _ => hlive, fun _ => ⟨hlive.1, hstatus⟩⟩
  · exact Iff.rfl

theorem live_takeBlk (hlive : rbb.Live block) (i : Nat) :
    (rbb.takeBlk block).Live i ↔ rbb.Live i :=
  @live_setStatus { rbb with blkList := rbb.blkList.erase block } block hlive .get nofun i

theorem Shrinks.setStatus (h : Listed rbb) (hlive : rbb.Live block) {status : RbbStatus}
    (hstatus : status ≠ .unused) : Shrinks rbb (rbb.setStatus block status) :=
  ⟨rfl, rfl, fun _ => extent_setStatus _ _ _ _, fun i => (live_setStatus hlive hstatus i).mp,
    List.Sublist.refl _, h.nodup, fun i hi => (live_setStatus hlive hstatus i).mpr (h.live i hi)⟩

/-- A block leaves the list. -/
theorem Shrinks.erase (h : Listed rbb) (block : Nat) :
    Shrinks rbb { rbb with blkList := rbb.blkList.erase block } :=
  ⟨rfl, rfl, fun _ => rfl, fun _ h => h, List.erase_sublist, h.nodup.erase _,
    fun i hi => h.live i (List.mem_of_mem_erase hi)⟩

theorem Shrinks.takeBlk (h : Listed rbb) (hlive : rbb.Live block) :
    Shrinks rbb (rbb.takeBlk block) :=
  let herase := Shrinks.erase h block
  herase.trans (.setStatus herase.listed hlive nofun)

theorem Shrinks.free (h : Listed rbb) (hfree : rbb.rtRbbBlkFree block = some rbb') :
    Shrinks rbb rbb' := by
  obtain ⟨⟨hlt, hused⟩, heq⟩ := Option.ite_none_right_eq_some.mp hfree
  obtain rfl := Option.some.inj heq
  refine ⟨rfl, rfl, fun i => extent_setStatus _ _ _ _, fun i hi => ?_, List.erase_sublist,
    h.nodup.erase _, fun i hi => ?_⟩
  · unfold Rbb.Live at hi ⊢
    rw [status_setStatus] at hi
    split at hi
    · exact absurd rfl hi.2
    · exact hi
  · obtain ⟨hne, hi⟩ := (h.nodup.mem_erase_iff).mp hi
    unfold Rbb.Live
    rw [status_setStatus, if_neg hne]
    exact h.live i hi

theorem Shrinks.foldl_free {l : List Nat} (h : Listed rbb)
    (hfree : l.foldlM Rbb.rtRbbBlkFree rbb = some rbb') : Shrinks rbb rbb' := by
  induction l generalizing rbb with
  | nil => exact Option.some.inj hfree ▸ .refl h
  | cons i l ih =>
    obtain ⟨rbb₁, hfirst, hrest⟩ := Option.bind_eq_some_iff.mp hfree
    have hone := Shrinks.free h hfirst
    exact hone.trans (ih hone.listed hrest)

theorem Shrinks.queueLoop (h : Listed rbb) {len total : Nat} {last : Option Nat}
    {blkQueue : RbbBlkQueue} {nodes : List Nat} (hlive : ∀ i ∈ nodes, rbb.Live i) :
    Shrinks rbb (rbb.queueLoop len total last blkQueue nodes).1 := by
  induction nodes generalizing rbb total last blkQueue with
  | nil => exact .refl h
  | cons i nodes ih =>
    have hfirst := hlive i List.mem_cons_self
    have htake := Shrinks.takeBlk h hfirst
    have hlater : ∀ j ∈ nodes, (rbb.takeBlk i).Live j := fun j hj =>
      (live_takeBlk hfirst j).mpr (hlive j (List.mem_cons_of_mem i hj))
    unfold Rbb.queueLoop
    cases last with
    | none =>
      dsimp only
      split
      · exact htake.trans (ih htake.listed hlater)
      · exact ih h fun j hj => hlive j (List.mem_cons_of_mem i hj)
    | some last =>
      dsimp only
      split
      · exact .refl h
      · exact htake.trans (ih htake.listed hlater)

theorem Shrinks.queueGet (h : Listed rbb) (len : Nat) (blkQueue : RbbBlkQueue) :
    Shrinks rbb (rbb.rtRbbBlkQueueGet len blkQueue).1 := by
  unfold Rbb.rtRbbBlkQueueGet
  split
  · exact .refl h
  · exact .queueLoop h h.live

/-- Only an allocation adds a block. -/
theorem Shrinks.step {e : RbbEvent} (h : Listed rbb) (hstep : step rbb e = some rbb')
    (he : ∀ blkSize, e ≠ .alloc blkSize) : Shrinks rbb rbb' := by
  cases e with
  | alloc blkSize => exact absurd rfl (he blkSize)
  | put block =>
    obtain ⟨⟨hlt, hstatus⟩, heq⟩ := Option.ite_none_right_eq_some.mp hstep
    obtain rfl := Option.some.inj heq
    exact .setStatus h ⟨hlt, by rw [hstatus]; nofun⟩ nofun
  | get =>
    obtain rfl := Option.some.inj hstep
    unfold Rbb.rtRbbBlkGet
    split
    · exact .refl h
    · rename_i block hfind
      exact .setStatus h (h.live block (List.mem_of_find?_eq_some hfind)) nofun
  | free block => exact .free h hstep
  | queueGet len blkQueue =>
    obtain rfl := Option.some.inj hstep
    exact .queueGet h len blkQueue
  | queueFree blkQueue => exact .foldl_free h hstep

/-! ## Allocation -/

/-- A free block is not listed, so the list is not as long as the array. -/
theorem Listed.length_lt {new : Nat} (h : Listed rbb) (hlt : new < rbb.blkMaxNum)
    (hunused : (rbb.blkSet new).status = .unused) : rbb.blkList.length < rbb.blkMaxNum := by
  have hnew : new ∉ rbb.blkList := fun hmem => (h.live new hmem).2 hunused
  have hsub : new :: rbb.blkList ⊆ List.range rbb.blkMaxNum := fun i hi => by
    rcases List.mem_cons.mp hi with rfl | hi
    · exact List.mem_range.mpr hlt
    · exact List.mem_range.mpr (h.live i hi).1
  have hle := (List.subperm_of_subset (List.nodup_cons.mpr ⟨hnew, h.nodup⟩) hsub).length_le
  rwa [List.length_range] at hle

/-- An allocation fails if no block is free, or for want of room. -/
theorem alloc_cases {blkSize : Nat} (h : Listed rbb)
    (hstep : step rbb (.alloc blkSize) = some rbb') :
    rbb' = rbb ∧ ((∀ new < rbb.blkMaxNum, (rbb.blkSet new).status ≠ .unused) ∨
      rbb.allocBuf blkSize = none) ∨
    ∃ new buf, new < rbb.blkMaxNum ∧ (rbb.blkSet new).status = .unused ∧
      rbb.allocBuf blkSize = some buf ∧ rbb' = rbb.append new buf blkSize := by
  obtain ⟨⟨rbb₁, result⟩, halloc, rfl⟩ := Option.map_eq_some_iff.mp hstep
  obtain ⟨-, halloc⟩ := Option.ite_none_right_eq_some.mp halloc
  cases hfind : rbb.findEmptyBlkInSet with
  | none =>
    rw [hfind] at halloc
    obtain ⟨rfl, -⟩ := Prod.mk.inj (Option.some.inj halloc)
    refine .inl ⟨rfl, .inl fun new hlt => ?_⟩
    exact of_decide_eq_false
      (Bool.eq_false_of_not_eq_true (List.find?_eq_none.mp hfind new (List.mem_range.mpr hlt)))
  | some new =>
    have hlt := List.mem_range.mp (List.mem_of_find?_eq_some hfind)
    have hunused : (rbb.blkSet new).status = .unused := by
      simpa using List.find?_some hfind
    rw [hfind] at halloc
    dsimp only at halloc
    rw [if_pos (h.length_lt hlt hunused)] at halloc
    cases hbuf : rbb.allocBuf blkSize with
    | none =>
      rw [hbuf] at halloc
      obtain ⟨rfl, -⟩ := Prod.mk.inj (Option.some.inj halloc)
      exact .inl ⟨rfl, .inr rfl⟩
    | some buf =>
      rw [hbuf] at halloc
      obtain ⟨rfl, -⟩ := Prod.mk.inj (Option.some.inj halloc)
      exact .inr ⟨new, buf, hlt, hunused, rfl, rfl⟩

theorem extent_append {new buf blkSize : Nat} (i : Nat) :
    (rbb.append new buf blkSize).extent i =
      if i = new then ⟨buf, blkSize⟩ else rbb.extent i := by
  by_cases hi : i = new
  · subst hi
    simp [Rbb.extent, Rbb.append]
  · simp [Rbb.extent, Rbb.append, hi]

theorem live_append {new buf blkSize : Nat} (hlt : new < rbb.blkMaxNum) (i : Nat) :
    (rbb.append new buf blkSize).Live i ↔ i = new ∨ rbb.Live i := by
  by_cases hi : i = new
  · subst hi
    simp [Rbb.Live, Rbb.append, hlt]
  · simp [Rbb.Live, Rbb.append, hi]

theorem Listed.append {new buf blkSize : Nat} (h : Listed rbb) (hlt : new < rbb.blkMaxNum)
    (hunused : (rbb.blkSet new).status = .unused) : Listed (rbb.append new buf blkSize) := by
  have hnotin : new ∉ rbb.blkList := fun hmem => (h.live new hmem).2 hunused
  refine ⟨List.nodup_append.mpr ⟨h.nodup, List.nodup_singleton _, ?_⟩, fun i hi => ?_⟩
  · rintro i hi j hj rfl
    exact hnotin (List.mem_singleton.mp hj ▸ hi)
  · rw [live_append hlt]
    rcases List.mem_append.mp hi with hi | hi
    · exact .inr (h.live i hi)
    · exact .inl (List.mem_singleton.mp hi)

/-- What holds while no room is given away twice. -/
structure Inv (rbb : Rbb) : Prop extends Listed rbb where
  regions : Regions rbb
  ordered : RingLayout.Ordered (rbb.blkList.map rbb.extent)
  size_pos : ∀ i, rbb.Live i → 0 < (rbb.extent i).len
  fits : rbb.buf + rbb.bufSize < 2 ^ 32

theorem Inv.shrink (h : Inv rbb) (hs : Shrinks rbb rbb') : Inv rbb' := by
  refine ⟨hs.listed, ⟨fun i j hi hj hne => ?_, fun i hi => ?_⟩, ?_, fun i hi => ?_, ?_⟩
  · rw [hs.extent, hs.extent]
    exact h.regions.apart i j (hs.live i hi) (hs.live j hj) hne
  · rw [hs.extent, hs.buf, hs.bufSize]
    exact h.regions.inside i (hs.live i hi)
  · rw [funext hs.extent]
    exact h.ordered.sublist (hs.sublist.map _)
  · rw [hs.extent]
    exact h.size_pos i (hs.live i hi)
  · rw [hs.buf, hs.bufSize]
    exact h.fits

/-- Behind a listed block the code finds the room that there is. -/
theorem Inv.allocBuf_eq {blkSize : Nat} (h : Inv rbb) (hne : rbb.blkList ≠ []) :
    rbb.allocBuf blkSize = RingLayout.room rbb.buf (rbb.buf + rbb.bufSize) blkSize
      (rbb.blkList.map rbb.extent) := by
  obtain ⟨i, l, hlist⟩ := List.exists_cons_of_ne_nil hne
  have hlast_mem : (i :: l).getLast (List.cons_ne_nil i l) ∈ rbb.blkList := by
    rw [hlist]
    exact List.getLast_mem _
  have hhead := h.live i (by rw [hlist]; exact List.mem_cons_self)
  have htail := h.live _ hlast_mem
  have hhead_in := h.regions.inside _ hhead
  have htail_in := h.regions.inside _ htail
  have hapart := h.regions.apart _ _ hhead htail
  have hfits := h.fits
  have hlast : (rbb.extent i :: l.map rbb.extent).getLast (List.cons_ne_nil _ _) =
      rbb.extent ((i :: l).getLast (List.cons_ne_nil i l)) :=
    @List.getLast_map _ _ rbb.extent (i :: l) (List.cons_ne_nil _ _)
  unfold Rbb.allocBuf
  rw [hlist, List.map_cons, RingLayout.room_cons hlast]
  dsimp only
  generalize (i :: l).getLast (List.cons_ne_nil i l) = t at htail_in hapart
  unfold Extent.Apart Extent.stop Rbb.extent at *
  dsimp only at *
  have hstop : u32 ((rbb.blkSet t).buf + (rbb.blkSet t).size) =
      (rbb.blkSet t).buf + (rbb.blkSet t).size := u32_of_lt (by omega)
  rw [hstop]
  by_cases hle : (rbb.blkSet i).buf ≤ (rbb.blkSet t).buf
  · have hend : u32 (rbb.buf + rbb.bufSize) = rbb.buf + rbb.bufSize := u32_of_lt hfits
    rw [if_pos hle, if_pos hle, hend, usub_of_le (by omega) hfits,
      usub_of_le hhead_in.1 (by omega)]
    have hbehind : rbb.buf + rbb.bufSize - ((rbb.blkSet t).buf + (rbb.blkSet t).size) ≥ blkSize ↔
        (rbb.blkSet t).buf + (rbb.blkSet t).size + blkSize ≤ rbb.buf + rbb.bufSize := by omega
    have hbefore : (rbb.blkSet i).buf - rbb.buf ≥ blkSize ↔
        rbb.buf + blkSize ≤ (rbb.blkSet i).buf := by omega
    simp only [hbehind, hbefore]
  · have hne_it : i ≠ t := fun heq => hle (heq ▸ Nat.le_refl _)
    have hapart := hapart hne_it
    rw [if_neg hle, if_neg hle, usub_of_le (by omega) (by omega)]
    have hbetween : (rbb.blkSet i).buf - ((rbb.blkSet t).buf + (rbb.blkSet t).size) ≥ blkSize ↔
        (rbb.blkSet t).buf + (rbb.blkSet t).size + blkSize ≤ (rbb.blkSet i).buf := by omega
    simp only [hbetween]

/-- A block that is put into room that is free. -/
theorem Inv.append {new buf blkSize : Nat} (h : Inv rbb) (hlt : new < rbb.blkMaxNum)
    (hunused : (rbb.blkSet new).status = .unused) (hsize : 0 < blkSize)
    (hroom : RingLayout.room rbb.buf (rbb.buf + rbb.bufSize) blkSize (rbb.blkList.map rbb.extent) =
      some buf)
    (hfree : ∀ i, rbb.Live i → i ∉ rbb.blkList → (rbb.extent i).Apart ⟨buf, blkSize⟩) :
    Inv (rbb.append new buf blkSize) := by
  have hnew : ¬rbb.Live new := fun hlive => hlive.2 hunused
  have hold : ∀ i, rbb.Live i → (rbb.append new buf blkSize).extent i = rbb.extent i :=
    fun i hi => by
      rw [extent_append, if_neg]
      rintro rfl
      exact hnew hi
  have hnew_extent : (rbb.append new buf blkSize).extent new = ⟨buf, blkSize⟩ := by
    rw [extent_append, if_pos rfl]
  have hmap : (rbb.blkList ++ [new]).map (rbb.append new buf blkSize).extent =
      rbb.blkList.map rbb.extent ++ [⟨buf, blkSize⟩] := by
    rw [List.map_append, List.map_singleton, hnew_extent,
      List.map_congr_left fun i hi => hold i (h.live i hi)]
  obtain ⟨hordered, hlo, hhi⟩ := h.ordered.append
    (fun f hf => by obtain ⟨i, hi, rfl⟩ := List.mem_map.mp hf; exact h.size_pos i (h.live i hi))
    (fun f hf => by
      obtain ⟨i, hi, rfl⟩ := List.mem_map.mp hf
      exact h.regions.inside i (h.live i hi)) hroom
  have hlisted : ∀ i ∈ rbb.blkList, (rbb.extent i).Apart ⟨buf, blkSize⟩ := fun i hi =>
    (List.pairwise_append.mp hordered.apart).2.2 _ (List.mem_map_of_mem hi) _
      (List.mem_singleton_self _)
  have hapart : ∀ i, rbb.Live i → (rbb.extent i).Apart ⟨buf, blkSize⟩ := fun i hi => by
    by_cases hmem : i ∈ rbb.blkList
    · exact hlisted i hmem
    · exact hfree i hi hmem
  refine ⟨h.toListed.append hlt hunused, ⟨fun i j hi hj hne => ?_, fun i hi => ?_⟩, ?_,
    fun i hi => ?_, h.fits⟩
  · rw [live_append hlt] at hi hj
    rcases hi with rfl | hi <;> rcases hj with rfl | hj
    · exact absurd rfl hne
    · rw [hnew_extent, hold j hj]
      exact (hapart j hj).symm
    · rw [hnew_extent, hold i hi]
      exact hapart i hi
    · rw [hold i hi, hold j hj]
      exact h.regions.apart i j hi hj hne
  · rw [live_append hlt] at hi
    rcases hi with rfl | hi
    · rw [hnew_extent]
      exact ⟨hlo, hhi⟩
    · rw [hold i hi]
      exact h.regions.inside i hi
  · exact hmap ▸ hordered
  · rw [live_append hlt] at hi
    rcases hi with rfl | hi
    · rwa [hnew_extent]
    · rw [hold i hi]
      exact h.size_pos i hi

/-- A step that gives away free room only. -/
theorem Inv.step {e : RbbEvent} (h : Inv rbb) (hsize : ∀ blkSize, e = .alloc blkSize → 1 ≤ blkSize)
    (hroom : RoomIsFree rbb e) (hstep : step rbb e = some rbb') : Inv rbb' := by
  by_cases he : ∃ blkSize, e = .alloc blkSize
  · obtain ⟨blkSize, rfl⟩ := he
    rcases alloc_cases h.toListed hstep with ⟨rfl, -⟩ | ⟨new, buf, hlt, hunused, hbuf, rfl⟩
    · exact h
    · obtain ⟨hempty, hroom⟩ := hroom ⟨new, hlt, hunused⟩
      have hplace : RingLayout.room rbb.buf (rbb.buf + rbb.bufSize) blkSize
          (rbb.blkList.map rbb.extent) = some buf := by
        by_cases hnil : rbb.blkList = []
        · have hle := hempty hnil
          unfold Rbb.allocBuf at hbuf
          rw [hnil] at hbuf ⊢
          exact (if_pos (Nat.add_le_add_left hle _)).trans hbuf
        · rw [← h.allocBuf_eq hnil, hbuf]
      exact h.append hlt hunused (hsize blkSize rfl) hplace (hroom buf hplace)
  · exact h.shrink (.step h.toListed hstep fun blkSize heq => he ⟨blkSize, heq⟩)

/-- If the regions are still apart behind a step, the room it gave away was free. -/
theorem Inv.roomIsFree {e : RbbEvent} (h : Inv rbb) (hstep : RingBlock.step rbb e = some rbb')
    (hregions : Regions rbb') : RoomIsFree rbb e := by
  cases e with
  | alloc blkSize =>
    rintro ⟨new, hlt, hunused⟩
    rcases alloc_cases h.toListed hstep with ⟨-, hnone | hnone⟩ |
      ⟨new, buf, hlt, hunused, hbuf, rfl⟩
    · exact absurd hunused (hnone new hlt)
    · have hne : rbb.blkList ≠ [] := fun hnil => by
        unfold Rbb.allocBuf at hnone
        rw [hnil] at hnone
        cases hnone
      rw [← h.allocBuf_eq hne, hnone]
      exact ⟨fun hnil => absurd hnil hne, nofun⟩
    · have hnew : (rbb.append new buf blkSize).extent new = ⟨buf, blkSize⟩ := by
        rw [extent_append, if_pos rfl]
      have hnew_live : (rbb.append new buf blkSize).Live new := (live_append hlt new).mpr (.inl rfl)
      refine ⟨fun hnil => ?_, fun start hstart i hi _ => ?_⟩
      · unfold Rbb.allocBuf at hbuf
        rw [hnil] at hbuf
        obtain rfl := Option.some.inj hbuf
        have hin := (hregions.inside new hnew_live).2
        rw [hnew] at hin
        exact Nat.le_of_add_le_add_left hin
      · have hsame : buf = start := by
          by_cases hnil : rbb.blkList = []
          · unfold Rbb.allocBuf at hbuf
            rw [hnil] at hbuf hstart
            exact Option.some.inj (hbuf.symm.trans (Option.ite_none_right_eq_some.mp hstart).2)
          · rw [← h.allocBuf_eq hnil, hbuf] at hstart
            exact Option.some.inj hstart
        have hne : i ≠ new := by
          rintro rfl
          exact hi.2 hunused
        have hapart := hregions.apart i new ((live_append hlt i).mpr (.inr hi)) hnew_live hne
        rwa [hnew, extent_append, if_neg hne, hsame] at hapart
  | _ => trivial

end

/-- A request for a block is for one byte or more. -/
abbrev SizedEvent := { e : RbbEvent // ∀ blkSize, e = .alloc blkSize → 1 ≤ blkSize }

def sizedStep (rbb : Rbb) (e : SizedEvent) : Option Rbb := step rbb e.1

/-- The regions stay apart and in the buffer exactly in the runs in which every room that is given
away is free. -/
theorem regions_disjoint_iff (b : Buffer) (blkMaxNum : Nat) (es : List SizedEvent) :
    Throughout sizedStep Regions (rtRbbInit b blkMaxNum) es ↔
      Along sizedStep (fun rbb e => RoomIsFree rbb e.1) (rtRbbInit b blkMaxNum) es := by
  refine throughout_iff_along (J := Inv) (fun _ h => h.regions)
    (fun rbb e rbb' h hroom hstep => h.step e.2 hroom hstep)
    (fun rbb e rbb' h hstep hregions => h.roomIsFree hstep hregions) ?_ es
  have hnone : ∀ i, ¬(rtRbbInit b blkMaxNum).Live i := fun i h => h.2 rfl
  exact ⟨⟨List.nodup_nil, nofun⟩, ⟨fun i _ h => absurd h (hnone i), fun i h => absurd h (hnone i)⟩,
    RingLayout.ordered_nil, fun i h => absurd h (hnone i), b.fits⟩

/-- A block is put, and got with the queue; then another is allocated. -/
def queuedThenAlloc : List SizedEvent :=
  [⟨.alloc 4, by rintro _ ⟨⟩; decide⟩, ⟨.put 0, nofun⟩, ⟨.queueGet 16 ⟨0, 0⟩, nofun⟩,
    ⟨.alloc 4, by rintro _ ⟨⟩; decide⟩]

/-- The two get the same region. -/
theorem queued_region_reused :
    ¬Throughout sizedStep Regions (rtRbbInit ⟨0x20000000, 16, by decide⟩ 2) queuedThenAlloc := by
  intro h
  have hrun : ((run sizedStep (rtRbbInit ⟨0x20000000, 16, by decide⟩ 2) queuedThenAlloc).map
      fun rbb => (rbb.blkMaxNum, rbb.blkSet 0, rbb.blkSet 1)) =
      some (2, ⟨.get, 4, 0x20000000⟩, ⟨.inited, 4, 0x20000000⟩) := by decide
  obtain ⟨rbb, hrbb, heq⟩ := Option.map_eq_some_iff.mp hrun
  simp only [Prod.mk.injEq] at heq
  obtain ⟨hmax, hfirst, hsecond⟩ := heq
  have hapart := (h.last hrbb).apart 0 1 ⟨by rw [hmax]; decide, by rw [hfirst]; nofun⟩
    ⟨by rw [hmax]; decide, by rw [hsecond]; nofun⟩ (by decide)
  unfold Rbb.extent at hapart
  rw [hfirst, hsecond] at hapart
  rcases hapart with h | h <;> exact absurd h (by decide)

end ControlRTT.Drivers.RingBlock

import ControlRTT.Kernel.SlabPlaces
import ControlRTT.Kernel.SlabLists

/-! # The zones of the slab heap

What is known of the zones, their lists and their chunks tells where the blocks lie: a block is
inside its zone or in pages of its own, and no two blocks share memory. -/
namespace ControlRTT.Kernel.Slab
open ControlRTT.Kernel.RtDef ControlRTT.Kernel.SlabPage ControlRTT.Lib.Extents
  ControlRTT.Lib.LinkedList

/-- Where everything is: the pages of `memusage`, the zones in use and the free ones, the lists of
the zones by index, and the free chunks by zone. -/
structure Layout where
  usage : Extent
  used : List Nat
  freed : List Nat
  lists : Nat → List Nat
  free : Nat → List Nat

def Layout.zones (L : Layout) : List Nat := L.used ++ L.freed

/-- The chunks of a zone that the callers hold. -/
def taken (zoneSize : Nat) (live : List Block) (z : Nat) : List Nat :=
  (live.filter fun b => b.size < zoneLimit zoneSize ∧ InZone zoneSize z b.start).map Block.start

/-- The chunks of the zones are free or held, and the zones are where they belong. -/
structure Zones (s : Heap) (live : List Block) (L : Layout) : Prop where
  parted : ∀ z ∈ L.zones,
    Parted s.zoneSize s.cNext z (s.zone z) (L.free z) (taken s.zoneSize live z)
  located : ∀ b ∈ live, b.size < zoneLimit s.zoneSize →
    ∃ z ∈ L.used, InZone s.zoneSize z b.start ∧ b.size ≤ (s.zone z).zChunksize
  lists : Lists s.zoneArray s.zone L.used L.lists
  freeList : Chain (fun z => (s.zone z).zNext) s.zoneFree L.freed

structure Sound (g : PageRegion) (s : Heap) (live : List Block) (L : Layout) : Prop where
  zoneSize : ZoneSized s.zoneSize
  placed : Placed g s.zoneSize s.pages s.memusage L.usage L.zones live
  zones : Zones s live L

section
variable {g : PageRegion} {s : Heap} {live live' : List Block} {L : Layout} {b : Block}
  {zoneSize z z' a : Nat}

theorem mem_zones (hz : z ∈ L.used) : z ∈ L.zones := List.mem_append_left _ hz

theorem taken_in (hb : b.size < zoneLimit zoneSize) (hz : InZone zoneSize z b.start) :
    taken zoneSize (b :: live) z = b.start :: taken zoneSize live z :=
  congrArg (List.map Block.start) (List.filter_cons_of_pos (by simpa using ⟨hb, hz⟩))

theorem taken_out (hz : ¬ (b.size < zoneLimit zoneSize ∧ InZone zoneSize z b.start)) :
    taken zoneSize (b :: live) z = taken zoneSize live z :=
  congrArg (List.map Block.start) (List.filter_cons_of_neg (by simpa using hz))

theorem mem_taken (hb : b ∈ live) (hsize : b.size < zoneLimit zoneSize)
    (hz : InZone zoneSize z b.start) : b.start ∈ taken zoneSize live z :=
  List.mem_map_of_mem (List.mem_filter.mpr ⟨hb, by simpa using ⟨hsize, hz⟩⟩)

theorem taken_eq_nil (h : ∀ b ∈ live, b.size < zoneLimit zoneSize → ¬ InZone zoneSize z b.start) :
    taken zoneSize live z = [] := by
  unfold taken
  rw [List.filter_eq_nil_iff.mpr fun b hb => ?_, List.map_nil]
  simpa using h b hb

theorem taken_perm (hperm : live.Perm live') (z : Nat) :
    (taken zoneSize live z).Perm (taken zoneSize live' z) := (hperm.filter _).map _

theorem Sound.perm (h : Sound g s live L) (hperm : live.Perm live') : Sound g s live' L where
  zoneSize := h.zoneSize
  placed := h.placed.perm (.refl _) hperm
  zones := { h.zones with
    parted := fun z hz => (h.zones.parted z hz).perm (taken_perm hperm z)
    located := fun b hb => h.zones.located b (hperm.mem_iff.mpr hb) }

/-- The address lies in the zone exactly if its page does. -/
theorem inZone_iff (hsize : zoneSize % rtMmPageSize = 0) :
    InZone zoneSize z a ↔ (zoneRun zoneSize z).Contains (a / rtMmPageSize) := by
  unfold InZone Extent.Contains zoneRun Extent.stop zonePageCnt rtMmPageSize at *
  dsimp only
  omega

theorem Parted.inZone {cNext : Nat → Option Nat} {h : SlabZone} {free taken : List Nat}
    (hp : Parted zoneSize cNext z h free taken) (ha : a ∈ Slab.chunks h) :
    InZone zoneSize z a := by
  have hpos := hp.pos
  obtain ⟨hle, hstop⟩ := hp.inside ha
  exact ⟨by omega, by omega⟩

/-! ## Blocks and zones -/

/-- The size of a block, as `rt_realloc` finds it. -/
def blockSize (s : Heap) (ptr : Nat) : Nat :=
  let kup := s.memusage (ptr / rtMmPageSize)
  if kup.type = .large then kup.size * rtMmPageSize
  else (s.zone (ptr / rtMmPageSize - kup.size)).zChunksize

/-- The memory of a block. -/
def space (s : Heap) (b : Block) : Extent := ⟨b.start, blockSize s b.start⟩

namespace Sound
variable (h : Sound g s live L)
include h

/-- An address is in one zone at most. -/
theorem zone_unique (hz : z ∈ L.zones) (hz' : z' ∈ L.zones) (ha : InZone s.zoneSize z a)
    (ha' : InZone s.zoneSize z' a) : z = z' :=
  h.placed.page_unique hz hz' ((inZone_iff h.zoneSize.mod).mp ha)
    ((inZone_iff h.zoneSize.mod).mp ha')

theorem notMem_freed (hz : z ∈ L.used) : z ∉ L.freed := fun hmem =>
  (List.nodup_append.mp h.placed.nodup).2.2 z hz z hmem rfl

theorem usage_small (hz : z ∈ L.zones) (ha : InZone s.zoneSize z a) :
    ∃ i, a / rtMmPageSize = z + i ∧ s.memusage (a / rtMmPageSize) = ⟨.small, i⟩ := by
  obtain ⟨hle, hlt⟩ := (inZone_iff h.zoneSize.mod).mp ha
  unfold zoneRun at hle
  unfold Extent.stop zoneRun at hlt
  dsimp only at hle hlt
  refine ⟨a / rtMmPageSize - z, (Nat.add_sub_cancel' hle).symm, ?_⟩
  have husage := h.placed.described.small z hz (a / rtMmPageSize - z) (by omega)
  rwa [Nat.add_sub_cancel' hle] at husage

theorem blockSize_small (hz : z ∈ L.zones) (ha : InZone s.zoneSize z a) :
    blockSize s a = (s.zone z).zChunksize := by
  obtain ⟨i, hpage, husage⟩ := h.usage_small hz ha
  unfold blockSize
  rw [husage, hpage]
  dsimp only
  rw [if_neg (by decide), Nat.add_sub_cancel]

theorem blockSize_large (hb : b ∈ live) (hsize : zoneLimit s.zoneSize ≤ b.size) :
    blockSize s b.start = b.npages * rtMmPageSize := by
  unfold blockSize
  rw [(h.placed.described.large b hb hsize).2.1]
  exact if_pos rfl

theorem le_blockSize (hb : b ∈ live) : b.size ≤ blockSize s b.start := by
  by_cases hsize : b.size < zoneLimit s.zoneSize
  · obtain ⟨z, hz, hin, hle⟩ := h.zones.located b hb hsize
    rwa [h.blockSize_small (mem_zones hz) hin]
  · rw [Nat.not_lt] at hsize
    rw [h.blockSize_large hb hsize]
    exact (h.placed.described.large b hb hsize).2.2

/-- A chunk that is held lies behind the header of its zone. -/
theorem inside (hb : b ∈ live) (hsize : b.size < zoneLimit s.zoneSize) (hz : z ∈ L.zones)
    (hin : InZone s.zoneSize z b.start) : z * rtMmPageSize + sizeofSlabZone ≤ b.start ∧
      (space s b).stop ≤ z * rtMmPageSize + s.zoneSize := by
  have hparted := h.zones.parted z hz
  unfold space Extent.stop
  rw [h.blockSize_small hz hin]
  exact hparted.inside (hparted.mem_taken (mem_taken hb hsize hin))

/-- The pages of a zone are apart from every block that is not one of its chunks. -/
theorem outside (hb : b ∈ live) (hz : z ∈ L.zones)
    (hout : ¬ (b.size < zoneLimit s.zoneSize ∧ InZone s.zoneSize z b.start)) :
    (space s b).Apart ⟨z * rtMmPageSize, s.zoneSize⟩ := by
  have hmod := h.zoneSize.mod
  by_cases hsize : b.size < zoneLimit s.zoneSize
  · obtain ⟨z', hz', hin, -⟩ := h.zones.located b hb hsize
    have hne : z' ≠ z := fun heq => hout ⟨hsize, heq ▸ hin⟩
    have hapart := h.placed.zone_apart (mem_zones hz') hz hne
    obtain ⟨hle, hstop⟩ := h.inside hb hsize (mem_zones hz') hin
    unfold Extent.Apart zoneRun zonePageCnt at hapart
    unfold Extent.Apart
    unfold Extent.stop rtMmPageSize at *
    unfold space at *
    dsimp only at *
    omega
  · rw [Nat.not_lt] at hsize
    have hapart := h.placed.zone_apart_block hz hb hsize
    have halign := (h.placed.described.large b hb hsize).1
    have hlen := h.blockSize_large hb hsize
    unfold Extent.Apart Block.run zoneRun zonePageCnt at hapart
    unfold Extent.Apart space
    unfold Extent.stop rtMmPageSize at *
    dsimp only at *
    omega

/-- No two blocks have memory in common. -/
theorem apart : live.Pairwise fun b c => (space s b).Apart (space s c) := by
  rw [List.pairwise_iff_forall_sublist]
  intro b c hsub
  have hb : b ∈ live := hsub.subset List.mem_cons_self
  have hc : c ∈ live := hsub.subset (List.mem_cons_of_mem b List.mem_cons_self)
  by_cases hbsize : b.size < zoneLimit s.zoneSize
  · obtain ⟨z, hz, hin, -⟩ := h.zones.located b hb hbsize
    by_cases hcz : c.size < zoneLimit s.zoneSize ∧ InZone s.zoneSize z c.start
    -- two chunks of one zone
    · have hparted := h.zones.parted z (mem_zones hz)
      have hnodup : (taken s.zoneSize [b, c] z).Nodup :=
        List.Nodup.sublist ((hsub.filter _).map _) (List.nodup_append.mp hparted.nodup).2.1
      rw [taken_in hbsize hin, taken_in hcz.1 hcz.2] at hnodup
      have hne : b.start ≠ c.start := fun heq =>
        (List.nodup_cons.mp hnodup).1 (heq ▸ List.mem_cons_self)
      have hchunks := hparted.apart (hparted.mem_taken (mem_taken hb hbsize hin))
        (hparted.mem_taken (mem_taken hc hcz.1 hcz.2)) hne
      unfold Extent.Apart space Extent.stop
      rw [h.blockSize_small (mem_zones hz) hin, h.blockSize_small (mem_zones hz) hcz.2]
      exact hchunks
    · have hout := h.outside hc (mem_zones hz) hcz
      obtain ⟨hle, hstop⟩ := h.inside hb hbsize (mem_zones hz) hin
      unfold Extent.Apart at *
      unfold space Extent.stop at *
      dsimp only at *
      omega
  · by_cases hcsize : c.size < zoneLimit s.zoneSize
    · obtain ⟨z, hz, hin, -⟩ := h.zones.located c hc hcsize
      have hout := h.outside hb (mem_zones hz) fun hsmall => hbsize hsmall.1
      obtain ⟨hle, hstop⟩ := h.inside hc hcsize (mem_zones hz) hin
      unfold Extent.Apart at *
      unfold space Extent.stop at *
      dsimp only at *
      omega
    · rw [Nat.not_lt] at hbsize hcsize
      have hlarges := hsub.filter fun b => decide (zoneLimit s.zoneSize ≤ b.size)
      rw [List.filter_cons_of_pos (by simpa using hbsize),
        List.filter_cons_of_pos (by simpa using hcsize), List.filter_nil] at hlarges
      have hpair := List.pairwise_iff_forall_sublist.mp h.placed.larges_pairwise hlarges
      have hbalign := (h.placed.described.large b hb hbsize).1
      have hcalign := (h.placed.described.large c hc hcsize).1
      unfold Extent.Apart Block.run at hpair
      unfold Extent.Apart space
      unfold Extent.stop at *
      rw [h.blockSize_large hb hbsize, h.blockSize_large hc hcsize]
      unfold rtMmPageSize at *
      dsimp only at *
      omega

end Sound

end

end ControlRTT.Kernel.Slab

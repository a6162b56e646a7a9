import ControlRTT.Kernel.SlabZones

/-! # The calls of the slab heap

`rt_malloc` and `rt_free` return, and keep the zones, their lists and their chunks in order. -/
namespace ControlRTT.Kernel.Slab
open ControlRTT.Kernel.RtDef ControlRTT.Kernel.SlabPage ControlRTT.Lib.LinkedList

/-- A pointer that is not zero is held. -/
def held (live : List Block) (ptr size : Nat) : List Block :=
  if ptr = 0 then live else ⟨ptr, size⟩ :: live

section
variable {g : PageRegion} {s : Heap} {live live' : List Block} {L : Layout} {b : Block} {z : Nat}

/-- A zone in use, or one that comes into use, has another header and other chunks. -/
theorem Zones.step {zoneArray : Nat → Option Nat} {h' : SlabZone} {cNext : Nat → Option Nat}
    {used' free' : List Nat} {lists' : Nat → List Nat} (h : Zones s live L)
    (hused : ∀ x, x ∈ used' ↔ x = z ∨ x ∈ L.used) (hfreed : z ∉ L.freed)
    (hparted : Parted s.zoneSize cNext z h' free' (taken s.zoneSize live' z))
    (hothers : ∀ x ∈ L.zones, x ≠ z → (∀ c ∈ L.free x, cNext c = s.cNext c) ∧
      taken s.zoneSize live' x = taken s.zoneSize live x)
    (hsize : z ∈ L.used → h'.zChunksize = (s.zone z).zChunksize)
    (hlive : ∀ b ∈ live', b ∈ live ∨ InZone s.zoneSize z b.start ∧ b.size ≤ h'.zChunksize)
    (hlists : Lists zoneArray (Function.update s.zone z h') used' lists') :
    Zones { s with zoneArray, zone := Function.update s.zone z h', cNext } live'
      { L with used := used', lists := lists', free := Function.update L.free z free' } where
  parted x hx := by
    dsimp only
    by_cases hxz : x = z
    · subst hxz
      rw [Function.update_self, Function.update_self]
      exact hparted
    · have hold : x ∈ L.zones := by
        rcases List.mem_append.mp hx with hx | hx
        · exact List.mem_append_left _ (((hused x).mp hx).resolve_left hxz)
        · exact List.mem_append_right _ hx
      obtain ⟨hcNext, htaken⟩ := hothers x hold hxz
      rw [Function.update_of_ne hxz, Function.update_of_ne hxz, htaken]
      exact (h.parted x hold).congr hcNext
  located b hb hsmall := by
    dsimp only at hsmall ⊢
    rcases hlive b hb with hold | ⟨hin, hle⟩
    · obtain ⟨x, hx, hin, hle⟩ := h.located b hold hsmall
      refine ⟨x, (hused x).mpr (.inr hx), hin, ?_⟩
      by_cases hxz : x = z
      · subst hxz
        rwa [Function.update_self, hsize hx]
      · rwa [Function.update_of_ne hxz]
    · refine ⟨z, (hused z).mpr (.inl rfl), hin, ?_⟩
      rwa [Function.update_self]
  lists := hlists
  freeList := by
    dsimp only
    rw [next_update]
    exact h.freeList.update hfreed _

/-! ## The steps of `rt_malloc` -/

namespace Sound
variable (h : Sound g s live L)
include h

/-- The zones other than that of a new chunk hold what they held. -/
theorem taken_other (hz : z ∈ L.zones) (hin : InZone s.zoneSize z b.start) {x : Nat}
    (hx : x ∈ L.zones) (hne : x ≠ z) (blocks : List Block) :
    taken s.zoneSize (b :: blocks) x = taken s.zoneSize blocks x :=
  taken_out fun hsmall => hne (h.zone_unique hx hz hsmall.2 hin)

/-- A chunk of the first zone of a list. -/
theorem takeChunk {zi bytes : Nat} {rest : List Nat} (hlist : L.lists zi = z :: rest)
    (hlt : bytes < zoneLimit s.zoneSize) (hle : bytes ≤ chunkOf zi) :
    ∃ s' p, Slab.takeChunk s zi (chunkOf zi) z = some (s', p) ∧ p ≠ 0 ∧
      ∃ L', Sound g s' (⟨p, bytes⟩ :: live) L' := by
  obtain ⟨hz, rfl, hnfree⟩ := (h.zones.lists.mem zi z).mp (hlist ▸ List.mem_cons_self)
  have hparted := h.zones.parted z (mem_zones hz)
  obtain ⟨h', chunk, free', hcall, hparted', hrelisted⟩ :=
    takeChunk_spec hparted hnfree hparted.size
  have hsame := hrelisted.chunksize hparted hparted'
  have hchunk := hparted'.mem_taken List.mem_cons_self
  have hin := hparted'.inZone hchunk
  have hinside := (hparted'.inside hchunk).1
  have hlists : ∃ lists', Lists (if (s.zone z).zNfree = 1 then
      Function.update s.zoneArray (s.zone z).zZoneindex (s.zone z).zNext else s.zoneArray)
      (Function.update s.zone z h') L.used lists' := by
    obtain ⟨hmagic, hindex, hcount, hnext⟩ := hrelisted
    by_cases hone : (s.zone z).zNfree = 1
    · rw [if_pos hone]
      exact ⟨_, h.zones.lists.pop hlist (by omega) hmagic⟩
    · rw [if_neg hone] at hnext ⊢
      exact ⟨_, h.zones.lists.keep (by omega) hindex hmagic hnext⟩
  obtain ⟨lists', hlists⟩ := hlists
  refine ⟨_, chunk, hcall, ?_, { L with lists := lists', free := Function.update L.free z free' },
    h.zoneSize, h.placed.cons_small hlt, h.zones.step
      (fun x => (or_iff_right_of_imp fun hx => hx ▸ hz).symm) (h.notMem_freed hz) ?_
      (fun x hx hne => ⟨fun _ _ => rfl, h.taken_other (mem_zones hz) hin hx hne _⟩)
      (fun _ => hsame) (List.forall_mem_cons.mpr ⟨.inr ⟨hin, ?_⟩, fun b hb => .inl hb⟩) hlists⟩
  · unfold sizeofSlabZone at hinside
    omega
  · rw [taken_in hlt hin]
    exact hparted'
  · exact hle.trans_eq (hparted.size.symm.trans hsame.symm)

/-- A large block, or no pages for it. -/
theorem mallocLarge {size : Nat} (hsize : zoneLimit s.zoneSize ≤ size) (hlt : size < 2 ^ 32) :
    ∃ s' p, Slab.mallocLarge s size = some (s', p) ∧ ∃ L', Sound g s' (held live p size) L' := by
  obtain ⟨pages, chunk, hcall, hpages⟩ :=
    h.placed.pages.alloc (rtAlign size rtMmPageSize / rtMmPageSize)
  unfold Slab.mallocLarge
  dsimp only
  rw [hcall, Option.map_some]
  by_cases hzero : chunk = 0
  · rw [if_pos hzero] at hpages
    rw [if_pos hzero]
    exact ⟨_, 0, rfl, L, h.zoneSize, ⟨hpages, h.placed.described⟩, { h.zones with }⟩
  · rw [if_neg hzero] at hpages
    rw [if_neg hzero]
    have hdiv : chunk * rtMmPageSize / rtMmPageSize = chunk := Nat.mul_div_cancel _ (by decide)
    have hne : chunk * rtMmPageSize ≠ 0 := Nat.mul_ne_zero hzero (by decide)
    have hplaced := h.placed.cons_large (b := ⟨chunk * rtMmPageSize, size⟩) hsize hlt
      (Nat.mul_mod_left _ _) (by rwa [Block.run, hdiv])
    rw [hdiv] at hplaced
    refine ⟨_, _, rfl, L, ?_⟩
    rw [held, if_neg hne]
    refine ⟨h.zoneSize, hplaced, fun z hz => ?_, List.forall_mem_cons.mpr ⟨fun hsmall => ?_,
      h.zones.located⟩, h.zones.lists, h.zones.freeList⟩
    · rw [taken_out fun hsmall => absurd hsmall.1 (Nat.not_lt.mpr hsize)]
      exact h.zones.parted z hz
    · exact absurd hsmall (Nat.not_lt.mpr hsize)

end Sound

/-- A zone that is in no list, and the rest of the heap. -/
structure Spare (g : PageRegion) (s : Heap) (live : List Block) (z : Nat) (L : Layout) : Prop where
  zoneSize : ZoneSized s.zoneSize
  placed : Placed g s.zoneSize s.pages s.memusage L.usage (z :: L.zones) live
  zones : Zones s live L

/-- The first of the free zones, and the others. -/
theorem Sound.freed_head (h : Sound g s live L) (hfree : s.zoneFree = some z) :
    ∃ rest, Chain (fun z => (s.zone z).zNext) (s.zone z).zNext rest ∧
      L.zones.Perm (z :: (L.used ++ rest)) := by
  have hchain := h.zones.freeList
  rw [hfree] at hchain
  obtain ⟨rest, hfreed, hrest⟩ := hchain.of_some
  refine ⟨rest, hrest, ?_⟩
  rw [Layout.zones, hfreed]
  exact List.perm_middle

theorem Sound.getZone (h : Sound g s live L) : ∃ s' r, Slab.getZone s = some (s', r) ∧
    s'.zoneSize = s.zoneSize ∧
    match r with
    | none => Sound g s' live L
    | some z => ∃ L', Spare g s' live z L' := by
  unfold Slab.getZone
  cases hfree : s.zoneFree with
  | some z =>
    obtain ⟨rest, hrest, hperm⟩ := h.freed_head hfree
    refine ⟨_, _, rfl, rfl, { L with freed := rest }, h.zoneSize,
      h.placed.perm hperm (.refl _), fun x hx => ?_, h.zones.located, h.zones.lists, hrest⟩
    exact h.zones.parted x (hperm.mem_iff.mpr (List.mem_cons_of_mem z hx))
  | none =>
    obtain ⟨pages, z, hcall, hpages⟩ := h.placed.pages.alloc (s.zoneSize / rtMmPageSize)
    dsimp only
    rw [hcall, Option.map_some]
    by_cases hzero : z = 0
    · rw [if_pos hzero] at hpages
      rw [if_pos hzero]
      exact ⟨_, none, rfl, rfl, h.zoneSize, ⟨hpages, h.placed.described⟩,
        { h.zones with freeList := hfree ▸ h.zones.freeList }⟩
    · rw [if_neg hzero] at hpages
      rw [if_neg hzero]
      exact ⟨_, some z, rfl, rfl, L, h.zoneSize, h.placed.cons_zone hpages,
        { h.zones with freeList := hfree ▸ h.zones.freeList }⟩

/-- The spare zone comes into use. -/
theorem Spare.initZone (h : Spare g s live z L) {zi bytes : Nat}
    (hlt : bytes < zoneLimit s.zoneSize) (hle : bytes ≤ chunkOf zi)
    (hquarter : 4 * chunkOf zi ≤ s.zoneSize) :
    ∃ s' p, Slab.initZone s zi (chunkOf zi) z = (s', p) ∧ p ≠ 0 ∧
      ∃ L', Sound g s' (⟨p, bytes⟩ :: live) L' := by
  obtain ⟨hnew, -⟩ := List.nodup_cons.mp h.placed.nodup
  obtain ⟨h', chunk, hcall, hparted, hmagic, hindex, hnfree, hnext⟩ :=
    initZone_spec (z := z) s.cNext h.zoneSize.le rfl hquarter
  have hchunk := hparted.mem_taken List.mem_cons_self
  have hin := hparted.inZone hchunk
  have hinside := (hparted.inside hchunk).1
  have hunique : ∀ x ∈ L.zones, ∀ a, InZone s.zoneSize z a → ¬ InZone s.zoneSize x a := by
    intro x hx a ha hxa
    have heq := h.placed.page_unique List.mem_cons_self (List.mem_cons_of_mem z hx)
      ((inZone_iff h.zoneSize.mod).mp ha) ((inZone_iff h.zoneSize.mod).mp hxa)
    exact hnew (heq ▸ hx)
  have hempty : taken s.zoneSize live z = [] := taken_eq_nil fun b hb hsmall ha => by
    obtain ⟨x, hx, hxa, -⟩ := h.zones.located b hb hsmall
    exact hunique x (mem_zones hx) b.start ha hxa
  have hout : ∀ zj, z ∉ L.lists zj := fun zj hmem =>
    hnew (mem_zones ((h.zones.lists.mem zj z).mp hmem).1)
  have hused : ∀ x, x ∈ z :: L.used ↔ x = z ∨ x ∈ L.used := fun x => List.mem_cons
  have hunused : z ∉ L.used := fun hmem => hnew (mem_zones hmem)
  refine ⟨_, chunk, hcall, ?_, { L with
      used := z :: L.used
      lists := Function.update L.lists zi (z :: L.lists zi)
      free := Function.update L.free z [] }, h.zoneSize, h.placed.cons_small hlt,
    h.zones.step hused (fun hmem => hnew (List.mem_append_right _ hmem)) ?_
      (fun x hx _ => ⟨fun _ _ => rfl, taken_out fun hsmall => hunique x hx chunk hin hsmall.2⟩)
      (fun hmem => absurd hmem hunused)
      (List.forall_mem_cons.mpr ⟨.inr ⟨hin, ?_⟩, fun b hb => .inl hb⟩)
      (h.zones.lists.push hout hused hnfree hindex hmagic hnext)⟩
  · unfold sizeofSlabZone at hinside
    omega
  · rw [taken_in hlt hin, hempty]
    exact hparted
  · rw [hparted.size, hindex]
    exact hle

theorem held_of_ne {p size : Nat} (hp : p ≠ 0) : held live p size = ⟨p, size⟩ :: live := if_neg hp

/-- The call returns, with a block or without. -/
theorem Sound.rtMalloc (h : Sound g s live L) {size : Nat} (hlt : size < 2 ^ 32) :
    ∃ s' p, Slab.rtMalloc s size = some (s', p) ∧ ∃ L', Sound g s' (held live p size) L' := by
  unfold Slab.rtMalloc
  by_cases hzero : size = 0
  · rw [if_pos hzero]
    exact ⟨s, 0, rfl, L, h⟩
  rw [if_neg hzero]
  by_cases hlarge : zoneLimit s.zoneSize ≤ size
  · rw [if_pos hlarge]
    exact h.mallocLarge hlarge hlt
  rw [if_neg hlarge]
  rw [Nat.not_le] at hlarge
  obtain ⟨hzi, hsize, hle⟩ := zoneindex_spec (Nat.pos_of_ne_zero hzero)
    (Nat.lt_of_lt_of_le hlarge (Nat.min_le_right _ _))
  have hquarter := zoneindex_le hlarge h.zoneSize
  cases hindex : zoneindex size with | _ zi chunksize
  rw [hindex] at hzi hsize hle hquarter
  dsimp only at hzi hsize hle hquarter ⊢
  subst hsize
  rw [if_neg (Nat.not_le.mpr hzi)]
  cases harray : s.zoneArray zi with
  | some z =>
    have hchain := h.zones.lists.chain zi
    rw [harray] at hchain
    obtain ⟨rest, hlist, -⟩ := hchain.of_some
    obtain ⟨s', p, hcall, hp, L', hsound⟩ := h.takeChunk hlist hlarge hle
    exact ⟨s', p, hcall, L', by rwa [held_of_ne hp]⟩
  | none =>
    obtain ⟨s₁, r, hget, hsame, hr⟩ := h.getZone
    dsimp only
    rw [hget, Option.map_some]
    cases r with
    | none => exact ⟨s₁, 0, rfl, L, hr⟩
    | some z =>
      obtain ⟨L₁, hspare⟩ := hr
      obtain ⟨s', p, hcall, hp, L', hsound⟩ :=
        hspare.initZone (hsame ▸ hlarge) hle (hsame ▸ hquarter)
      exact ⟨s', p, congrArg some hcall, L', by rwa [held_of_ne hp]⟩

/-! ## The steps of `rt_free` -/

theorem Sound.freeLarge (h : Sound g s (b :: live) L) (hsize : zoneLimit s.zoneSize ≤ b.size) :
    ∃ s', rtFree s b.start = some s' ∧ ∃ L', Sound g s' live L' := by
  have hb : b ∈ b :: live := List.mem_cons_self
  obtain ⟨halign, husage, -⟩ := h.placed.described.large b hb hsize
  have hpage : b.start / rtMmPageSize ≠ 0 := h.placed.pages.start_ne (block_mem hb hsize)
  have hne : b.start ≠ 0 := fun hzero => hpage (by rw [hzero, Nat.zero_div])
  obtain ⟨pages, hcall, hplaced⟩ := h.placed.of_large hsize ⟨.large, 0⟩
  unfold rtFree
  rw [if_neg hne, husage]
  dsimp only
  rw [if_pos rfl, if_neg (not_not.mpr halign), hcall]
  refine ⟨_, rfl, L, h.zoneSize, hplaced, fun z hz => ?_,
    fun c hc => h.zones.located c (List.mem_cons_of_mem b hc), h.zones.lists, h.zones.freeList⟩
  have hparted := h.zones.parted z hz
  rwa [taken_out fun hsmall => absurd hsmall.1 (Nat.not_lt.mpr hsize)] at hparted

/-- A chunk goes back to its zone. -/
theorem Sound.giveChunk (h : Sound g s (b :: live) L) (hsize : b.size < zoneLimit s.zoneSize)
    (hz : z ∈ L.used) (hin : InZone s.zoneSize z b.start) :
    ∃ L', Sound g (Slab.giveChunk s z b.start) live L' ∧ z ∈ L'.used := by
  have hparted := h.zones.parted z (mem_zones hz)
  rw [taken_in hsize hin] at hparted
  obtain ⟨h', hcall, hparted', hrelisted⟩ := giveChunk_spec hparted
  rw [hcall]
  have hsame := hrelisted.chunksize hparted hparted'
  have hlists : ∃ lists', Lists (if (s.zone z).zNfree = 0 then
      Function.update s.zoneArray (s.zone z).zZoneindex (some z) else s.zoneArray)
      (Function.update s.zone z h') L.used lists' := by
    obtain ⟨hmagic, hindex, hcount, hnext⟩ := hrelisted
    by_cases hzero : (s.zone z).zNfree = 0
    · have hout : ∀ zj, z ∉ L.lists zj := fun zj hmem =>
        Nat.ne_of_gt ((h.zones.lists.mem zj z).mp hmem).2.2 hzero
      rw [if_pos hzero] at hnext ⊢
      exact ⟨_, h.zones.lists.push hout (fun x => (or_iff_right_of_imp fun hx => hx ▸ hz).symm)
        (by omega) hindex (hmagic.trans (h.zones.lists.magic z hz)) hnext⟩
    · rw [if_neg hzero] at hnext ⊢
      exact ⟨_, h.zones.lists.keep (by omega) hindex hmagic hnext⟩
  obtain ⟨lists', hlists⟩ := hlists
  refine ⟨{ L with
      lists := lists'
      free := Function.update L.free z (b.start :: L.free z) },
    ⟨h.zoneSize, h.placed.of_small hsize, h.zones.step
      (fun x => (or_iff_right_of_imp fun hx => hx ▸ hz).symm) (h.notMem_freed hz) hparted'
      (fun x hx hne => ⟨fun c hc => ?_, ?_⟩) (fun _ => hsame)
      (fun c hc => .inl (List.mem_cons_of_mem b hc)) hlists⟩, hz⟩
  -- the free chunks of the other zones are elsewhere
  · refine Function.update_of_ne ?_ _ _
    rintro rfl
    have hother := h.zones.parted x hx
    exact hne (h.zone_unique hx (mem_zones hz) (hother.inZone (hother.mem_free hc)) hin)
  · exact (h.taken_other (mem_zones hz) hin hx hne live).symm

/-- A zone that is free becomes one of the free zones. -/
theorem Sound.retireZone (h : Sound g s live L) (hz : z ∈ L.used)
    (hfull : (s.zone z).zNfree = (s.zone z).zNmax) :
    ∃ s', Slab.retireZone s z = some s' ∧ s'.zoneFree = some z ∧ ∃ L', Sound g s' live L' := by
  have hparted := h.zones.parted z (mem_zones hz)
  have hempty : taken s.zoneSize live z = [] := by
    have hlen := hparted.chunks.length_eq
    have hnfree := hparted.nfree
    have huindex := hparted.uindex
    rw [List.length_append, chunks, List.length_map, List.length_range] at hlen
    exact List.eq_nil_of_length_eq_zero (by omega)
  have hnodup := (List.nodup_append.mp h.placed.nodup).1
  have hleft : ∀ x, x ∈ L.used.erase z ↔ x ∈ L.used ∧ x ≠ z := fun x =>
    (List.Nodup.mem_erase_iff hnodup).trans and_comm
  have hlength : L.used.length ≤ pageLimit :=
    (List.sublist_append_left L.used L.freed).length_le.trans h.placed.length_le
  have hnfree : 0 < (s.zone z).zNfree := hfull ▸ Nat.zero_lt_of_lt hparted.uindex
  obtain ⟨zoneArray, zone, lists', hcall, hlists, hrelabelled, hchain⟩ :=
    retireZone_spec h.zones.lists h.zones.freeList (fun x hx hmem => h.notMem_freed hmem hx) hz
      hnfree hlength hleft
  have hperm : L.zones.Perm (L.used.erase z ++ z :: L.freed) :=
    ((List.perm_cons_erase hz).append_right L.freed).trans List.perm_middle.symm
  refine ⟨_, hcall, rfl, { L with
      used := L.used.erase z
      freed := z :: L.freed
      lists := lists' }, h.zoneSize, h.placed.perm hperm (.refl _), fun x hx => ?_,
    fun b hb hsize => ?_, hlists, hchain⟩
  · obtain ⟨magic, next, heq⟩ := hrelabelled x
    dsimp only
    rw [heq]
    exact (h.zones.parted x (hperm.mem_iff.mpr hx)).relabel magic next
  · obtain ⟨x, hx, hin, hle⟩ := h.zones.located b hb hsize
    have hne : x ≠ z := by
      rintro rfl
      exact List.ne_nil_of_mem (mem_taken hb hsize hin) hempty
    obtain ⟨magic, next, heq⟩ := hrelabelled x
    refine ⟨x, (List.mem_erase_of_ne hne).mpr hx, hin, ?_⟩
    dsimp only
    rw [heq]
    exact hle

/-- The first of the free zones goes back to the page allocator. -/
theorem Sound.releaseZone (h : Sound g s live L) (hfree : s.zoneFree = some z) :
    ∃ s', Slab.releaseZone s = some s' ∧ ∃ L', Sound g s' live L' := by
  obtain ⟨rest, hrest, hperm⟩ := h.freed_head hfree
  obtain ⟨pages, hcall, hplaced⟩ := (h.placed.perm hperm (.refl _)).of_zone ⟨.free, 0⟩
  unfold Slab.releaseZone
  rw [hfree]
  dsimp only
  rw [hcall]
  exact ⟨_, rfl, { L with freed := rest }, h.zoneSize, hplaced, fun x hx =>
    h.zones.parted x (hperm.mem_iff.mpr (List.mem_cons_of_mem z hx)), h.zones.located,
    h.zones.lists, hrest⟩

/-- The call returns. -/
theorem Sound.rtFree (h : Sound g s (b :: live) L) :
    ∃ s', Slab.rtFree s b.start = some s' ∧ ∃ L', Sound g s' live L' := by
  by_cases hsize : zoneLimit s.zoneSize ≤ b.size
  · exact h.freeLarge hsize
  rw [Nat.not_le] at hsize
  obtain ⟨z, hz, hin, -⟩ := h.zones.located b List.mem_cons_self hsize
  obtain ⟨i, hpage, husage⟩ := h.usage_small (mem_zones hz) hin
  have hne : b.start ≠ 0 := by
    have hpos := h.placed.start_pos (mem_zones hz)
    obtain ⟨hle, -⟩ := hin
    unfold rtMmPageSize at hle
    omega
  obtain ⟨L₁, hgiven, hused⟩ := h.giveChunk hsize hz hin
  unfold Slab.rtFree
  rw [if_neg hne, husage, hpage]
  dsimp only
  rw [if_neg (by decide), Nat.add_sub_cancel, if_neg (not_not.mpr (h.zones.lists.magic z hz))]
  split
  · rename_i hfull
    obtain ⟨s₂, hretire, hfree, L₂, hretired⟩ := hgiven.retireZone hused hfull.1
    rw [hretire, Option.bind_some]
    split
    · exact hretired.releaseZone hfree
    · exact ⟨s₂, rfl, L₂, hretired⟩
  · exact ⟨_, rfl, L₁, hgiven⟩

end

end ControlRTT.Kernel.Slab

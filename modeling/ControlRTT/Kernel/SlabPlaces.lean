import Mathlib.Algebra.BigOperators.Group.List.Basic
import Mathlib.Data.List.Pairwise
import ControlRTT.Kernel.Slab

/-! # Where the blocks of the slab heap lie

The pages of the heap are free, or they are those of `memusage`, of a zone or of a large block. The
type of a page leads to its zone or to the length of its block. -/
namespace ControlRTT.Kernel.Slab
open ControlRTT.Kernel.RtDef ControlRTT.Kernel.SlabPage ControlRTT.Lib.Extents

/-- What a caller holds: an address, and the size it has asked for. -/
structure Block where
  start : Nat
  size : Nat
  deriving DecidableEq, Repr

/-- The pages that a large block is given. -/
def Block.npages (b : Block) : Nat := rtAlign b.size rtMmPageSize / rtMmPageSize

def Block.run (b : Block) : Extent := ⟨b.start / rtMmPageSize, b.npages⟩

def zoneRun (zoneSize z : Nat) : Extent := ⟨z, zonePageCnt zoneSize⟩

/-- An address in the pages of a zone. -/
def InZone (zoneSize z a : Nat) : Prop :=
  z * rtMmPageSize ≤ a ∧ a < z * rtMmPageSize + zoneSize

instance (zoneSize z a : Nat) : Decidable (InZone zoneSize z a) :=
  inferInstanceAs (Decidable (_ ∧ _))

/-- The large blocks. -/
def larges (zoneSize : Nat) (live : List Block) : List Block :=
  live.filter fun b => zoneLimit zoneSize ≤ b.size

/-- The runs of pages that are in use. -/
def runs (zoneSize : Nat) (usage : Extent) (zones : List Nat) (live : List Block) : List Extent :=
  usage :: (zones.map (zoneRun zoneSize) ++ (larges zoneSize live).map Block.run)

/-- The page allocator has handed out these runs. -/
def PagesOf (g : PageRegion) (heap : PageHeap) (owned : List Extent) : Prop :=
  ∃ free, Pages g { heap, owned } free

/-- The pages of the zones and of the large blocks are described. -/
structure Described (zoneSize : Nat) (memusage : Nat → Memusage) (zones : List Nat)
    (live : List Block) : Prop where
  small : ∀ z ∈ zones, ∀ i < zonePageCnt zoneSize, memusage (z + i) = ⟨.small, i⟩
  large : ∀ b ∈ live, zoneLimit zoneSize ≤ b.size → b.start % rtMmPageSize = 0 ∧
    memusage (b.start / rtMmPageSize) = ⟨.large, b.npages⟩ ∧ b.size ≤ b.npages * rtMmPageSize

/-- The pages of the heap, and what is known of the pages in use. -/
structure Placed (g : PageRegion) (zoneSize : Nat) (pages : PageHeap) (memusage : Nat → Memusage)
    (usage : Extent) (zones : List Nat) (live : List Block) : Prop where
  pages : PagesOf g pages (runs zoneSize usage zones live)
  described : Described zoneSize memusage zones live

section
variable {g : PageRegion} {heap : PageHeap} {owned owned' : List Extent}

theorem PagesOf.perm (h : PagesOf g heap owned) (hperm : owned.Perm owned') :
    PagesOf g heap owned' := by
  obtain ⟨free, h⟩ := h
  exact ⟨free, {
    listed := h.listed
    sorted := h.sorted
    nonempty := fun f hf => h.nonempty f (hperm.mem_iff.mpr hf)
    owned := (hperm.pairwise_iff fun h => h.symm).mp h.owned
    apart := fun e he f hf => h.apart e he f (hperm.mem_iff.mpr hf)
    all := fun x => (h.all x).trans (or_congr_right (covers_perm hperm x))
    count := (congrArg (size free + ·) (size_perm hperm.symm)).trans h.count }⟩

theorem PagesOf.alloc (h : PagesOf g heap owned) (npages : Nat) :
    ∃ heap' b, rtPageAlloc heap npages = some (heap', b) ∧
      PagesOf g heap' (if b = 0 then owned else ⟨b, npages⟩ :: owned) := by
  obtain ⟨free, h⟩ := h
  obtain ⟨s', hact, hpages⟩ := h.alloc npages
  obtain ⟨⟨heap', b⟩, hcall, rfl⟩ := Option.map_eq_some_iff.mp hact
  exact ⟨heap', b, hcall, hpages⟩

theorem PagesOf.freed {r : Extent} (h : PagesOf g heap (r :: owned)) :
    ∃ heap', rtPageFree heap r.start r.len = some heap' ∧ PagesOf g heap' owned := by
  obtain ⟨free, h⟩ := h
  obtain ⟨s', hact, hpages⟩ := h.freed List.mem_cons_self
  obtain ⟨heap', hcall, rfl⟩ := Option.map_eq_some_iff.mp hact
  rw [List.erase_cons_head] at hpages
  exact ⟨heap', hcall, hpages⟩

/-- The heads of free runs stay when only the pages of the others are written. -/
theorem PagesOf.write (h : PagesOf g heap owned) {head : Nat → PageHead}
    (hsame : ∀ p, ¬ Covers owned p → head p = heap.head p) :
    PagesOf g { heap with head } owned := by
  obtain ⟨free, h⟩ := h
  refine ⟨free, { h with listed := h.listed.congr fun e he => hsame _ ?_ }⟩
  rintro ⟨f, hf, hcontains⟩
  exact (h.apart e he f hf).not_contains (Extent.contains_start (h.sorted.pos he)) hcontains

theorem PagesOf.pairwise (h : PagesOf g heap owned) : owned.Pairwise Extent.Apart :=
  h.elim fun _ h => h.owned

theorem PagesOf.pos (h : PagesOf g heap owned) {r : Extent} (hr : r ∈ owned) : 0 < r.len :=
  h.elim fun _ h => h.nonempty r hr

/-- There are no more runs than pages. -/
theorem PagesOf.length_le (h : PagesOf g heap owned) : owned.length ≤ pageLimit := by
  obtain ⟨free, h⟩ := h
  have hsum := List.length_le_sum_of_one_le (owned.map Extent.len) fun n hn => by
    obtain ⟨e, he, rfl⟩ := List.mem_map.mp hn
    exact h.nonempty e he
  have hcount := h.count
  have hfits := g.fits
  rw [List.length_map] at hsum
  dsimp only [size] at hcount
  omega

theorem PagesOf.start_ne (h : PagesOf g heap owned) {r : Extent} (hr : r ∈ owned) :
    r.start ≠ 0 := h.elim fun _ h => h.owned_start hr

end

/-! ## The loop over the pages of a zone -/

theorem setUsage_apply (f : Nat → Memusage) (z n : Nat) (m : Nat → Memusage) (p : Nat) :
    setUsage f z n m p = if z ≤ p ∧ p < z + n then f (p - z) else m p := by
  induction n with
  | zero => exact (if_neg (by omega)).symm
  | succ n ih =>
    unfold setUsage
    by_cases hp : p = z + n
    · subst hp
      rw [Function.update_self, if_pos (by omega), Nat.add_sub_cancel_left]
    · rw [Function.update_of_ne hp, ih]
      exact if_congr (by omega) rfl rfl

theorem setUsage_in (f : Nat → Memusage) (z : Nat) {i n : Nat} (h : i < n)
    (m : Nat → Memusage) : setUsage f z n m (z + i) = f i := by
  rw [setUsage_apply, if_pos (by omega), Nat.add_sub_cancel_left]

theorem setUsage_out (f : Nat → Memusage) (m : Nat → Memusage) {z n p : Nat}
    (h : ¬ (Extent.mk z n).Contains p) : setUsage f z n m p = m p := by
  rw [setUsage_apply]
  exact if_neg h

theorem update_out (m : Nat → Memusage) (v : Memusage) {r : Extent} (hr : 0 < r.len) {p : Nat}
    (h : ¬ r.Contains p) : Function.update m r.start v p = m p :=
  Function.update_of_ne (fun heq : p = r.start => h (heq ▸ Extent.contains_start hr)) _ _

/-! ## The runs in use -/

theorem mem_larges {zoneSize : Nat} {live : List Block} {b : Block} :
    b ∈ larges zoneSize live ↔ b ∈ live ∧ zoneLimit zoneSize ≤ b.size := by
  unfold larges
  rw [List.mem_filter, decide_eq_true_iff]

theorem larges_small {zoneSize : Nat} {b : Block} (h : b.size < zoneLimit zoneSize)
    (live : List Block) : larges zoneSize (b :: live) = larges zoneSize live :=
  List.filter_cons_of_neg (by simpa using h)

theorem larges_large {zoneSize : Nat} {b : Block} (h : zoneLimit zoneSize ≤ b.size)
    (live : List Block) : larges zoneSize (b :: live) = b :: larges zoneSize live :=
  List.filter_cons_of_pos (by simpa using h)

variable {g : PageRegion} {zoneSize : Nat} {pages pages' : PageHeap}
  {memusage memusage' : Nat → Memusage} {usage : Extent} {zones zones' : List Nat}
  {live live' : List Block} {b : Block} {r : Extent} {z z' : Nat}

theorem zone_mem (hz : z ∈ zones) : zoneRun zoneSize z ∈ runs zoneSize usage zones live :=
  List.mem_cons_of_mem _ (List.mem_append_left _ (List.mem_map_of_mem hz))

theorem block_mem (hb : b ∈ live) (hsize : zoneLimit zoneSize ≤ b.size) :
    b.run ∈ runs zoneSize usage zones live :=
  List.mem_cons_of_mem _ (List.mem_append_right _
    (List.mem_map_of_mem (mem_larges.mpr ⟨hb, hsize⟩)))

/-- What is written of pages that are in no other use leaves the rest as it is described. -/
theorem Described.keep (h : Described zoneSize memusage zones live)
    (hpages : PagesOf g pages (r :: runs zoneSize usage zones live))
    (hsame : ∀ p, ¬ r.Contains p → memusage' p = memusage p) :
    Described zoneSize memusage' zones live := by
  obtain ⟨hapart, -⟩ := List.pairwise_cons.mp hpages.pairwise
  refine ⟨fun z hz i hi => ?_, fun b hb hsize => ?_⟩
  · rw [hsame, h.small z hz i hi]
    intro hcontains
    refine (hapart _ (zone_mem hz)).not_contains hcontains ⟨Nat.le_add_right _ _, ?_⟩
    exact Nat.add_lt_add_left hi z
  · obtain ⟨halign, husage, hle⟩ := h.large b hb hsize
    refine ⟨halign, ?_, hle⟩
    rw [hsame, husage]
    intro hcontains
    have hbmem : b.run ∈ runs zoneSize usage zones live := block_mem hb hsize
    exact (hapart _ hbmem).not_contains hcontains
      (Extent.contains_start (hpages.pos (List.mem_cons_of_mem r hbmem)))

namespace Placed

theorem perm (h : Placed g zoneSize pages memusage usage zones live) (hzones : zones.Perm zones')
    (hlive : live.Perm live') : Placed g zoneSize pages memusage usage zones' live' where
  pages := h.pages.perm (((hzones.map _).append ((hlive.filter _).map _)).cons usage)
  described.small z hz := h.described.small z (hzones.mem_iff.mpr hz)
  described.large b hb := h.described.large b (hlive.mem_iff.mpr hb)

section
variable (h : Placed g zoneSize pages memusage usage zones live)
include h

theorem start_pos (hz : z ∈ zones) : 0 < z :=
  Nat.pos_of_ne_zero (h.pages.start_ne (zone_mem hz))

theorem zones_pairwise : (zones.map (zoneRun zoneSize)).Pairwise Extent.Apart :=
  (List.pairwise_append.mp (List.pairwise_cons.mp h.pages.pairwise).2).1

theorem larges_pairwise : (larges zoneSize live).Pairwise fun b c => b.run.Apart c.run :=
  List.pairwise_map.mp (List.pairwise_append.mp (List.pairwise_cons.mp h.pages.pairwise).2).2.1

theorem zone_apart_block (hz : z ∈ zones) (hb : b ∈ live) (hsize : zoneLimit zoneSize ≤ b.size) :
    (zoneRun zoneSize z).Apart b.run :=
  (List.pairwise_append.mp (List.pairwise_cons.mp h.pages.pairwise).2).2.2 _
    (List.mem_map_of_mem hz) _ (List.mem_map_of_mem (mem_larges.mpr ⟨hb, hsize⟩))

theorem zone_apart (hz : z ∈ zones) (hz' : z' ∈ zones) (hne : z ≠ z') :
    (zoneRun zoneSize z).Apart (zoneRun zoneSize z') := by
  have : Std.Symm Extent.Apart := ⟨fun _ _ h => h.symm⟩
  exact h.zones_pairwise.forall (List.mem_map_of_mem hz) (List.mem_map_of_mem hz')
    fun heq => hne (congrArg Extent.start heq)

theorem nodup : zones.Nodup := by
  refine (List.pairwise_map.mp h.zones_pairwise).imp_of_mem fun hz _ hapart => ?_
  rintro rfl
  have hpos := h.pages.pos (zone_mem hz)
  exact hapart.not_contains (Extent.contains_start hpos) (Extent.contains_start hpos)

/-- A page of a zone is in no other zone, and in no large block. -/
theorem page_unique (hz : z ∈ zones) (hz' : z' ∈ zones) {p : Nat}
    (hp : (zoneRun zoneSize z).Contains p) (hp' : (zoneRun zoneSize z').Contains p) : z = z' :=
  Decidable.byContradiction fun hne => (h.zone_apart hz hz' hne).not_contains hp hp'

theorem length_le : zones.length ≤ pageLimit := by
  have hle := h.pages.length_le
  rw [runs, List.length_cons, List.length_append, List.length_map] at hle
  omega

/-! ### Steps -/

/-- A block of a zone is given. -/
theorem cons_small (hb : b.size < zoneLimit zoneSize) :
    Placed g zoneSize pages memusage usage zones (b :: live) where
  pages := by
    unfold runs
    rw [larges_small hb]
    exact h.pages
  described.small := h.described.small
  described.large := List.forall_mem_cons.mpr
    ⟨fun hsize => absurd hb (Nat.not_lt.mpr hsize), h.described.large⟩

/-- New pages become a large block. -/
theorem cons_large (hb : zoneLimit zoneSize ≤ b.size) (hlt : b.size < 2 ^ 32)
    (halign : b.start % rtMmPageSize = 0)
    (hpages : PagesOf g pages' (b.run :: runs zoneSize usage zones live)) :
    Placed g zoneSize pages' (Function.update memusage (b.start / rtMmPageSize)
      ⟨.large, b.npages⟩) usage zones (b :: live) := by
  have hold : Described zoneSize (Function.update memusage b.run.start ⟨.large, b.npages⟩) zones
      live := h.described.keep hpages fun p => update_out _ _ (hpages.pos List.mem_cons_self)
  refine ⟨hpages.perm ?_, hold.small, List.forall_mem_cons.mpr ⟨fun _ => ⟨halign, ?_, ?_⟩,
    hold.large⟩⟩
  · unfold runs
    rw [larges_large hb, List.map_cons]
    exact (List.Perm.swap _ _ _).trans (List.perm_middle.symm.cons usage)
  · exact Function.update_self _ _ _
  · exact (rtAlign_page hlt).resolve_left (Nat.ne_of_gt (hpages.pos List.mem_cons_self))

/-- New pages become a zone. -/
theorem cons_zone (hpages : PagesOf g pages'
      (zoneRun zoneSize z :: runs zoneSize usage zones live)) :
    Placed g zoneSize pages' (setUsage (fun off => ⟨.small, off⟩) z (zonePageCnt zoneSize) memusage)
      usage (z :: zones) live := by
  have hold : Described zoneSize (setUsage (fun off => ⟨.small, off⟩) z (zonePageCnt zoneSize)
      memusage) zones live := h.described.keep hpages fun p hp => setUsage_out _ _ hp
  exact ⟨hpages.perm (List.Perm.swap _ _ _), List.forall_mem_cons.mpr
    ⟨fun i hi => setUsage_in _ z hi memusage, hold.small⟩, hold.large⟩

end

/-- A block of a zone is freed. -/
theorem of_small (h : Placed g zoneSize pages memusage usage zones (b :: live))
    (hb : b.size < zoneLimit zoneSize) : Placed g zoneSize pages memusage usage zones live where
  pages := by
    have hpages := h.pages
    unfold runs at hpages
    rwa [larges_small hb] at hpages
  described.small := h.described.small
  described.large c hc := h.described.large c (List.mem_cons_of_mem b hc)

/-- The pages of a large block are freed. -/
theorem of_large (h : Placed g zoneSize pages memusage usage zones (b :: live))
    (hb : zoneLimit zoneSize ≤ b.size) (m : Memusage) :
    ∃ pages', rtPageFree pages (b.start / rtMmPageSize) b.npages = some pages' ∧
      Placed g zoneSize pages' (Function.update memusage (b.start / rtMmPageSize) m)
        usage zones live := by
  have hpages : PagesOf g pages (b.run :: runs zoneSize usage zones live) := by
    refine h.pages.perm ?_
    unfold runs
    rw [larges_large hb, List.map_cons]
    exact (List.perm_middle.cons usage).trans (List.Perm.swap _ _ _)
  obtain ⟨pages', hcall, hpages'⟩ := hpages.freed
  have hrest : Described zoneSize memusage zones live :=
    ⟨h.described.small, fun c hc => h.described.large c (List.mem_cons_of_mem b hc)⟩
  exact ⟨pages', hcall, hpages', hrest.keep hpages fun p =>
    update_out _ _ (hpages.pos List.mem_cons_self)⟩

/-- The pages of a zone are freed. -/
theorem of_zone (h : Placed g zoneSize pages memusage usage (z :: zones) live) (m : Memusage) :
    ∃ pages', rtPageFree pages z (zoneSize / rtMmPageSize) = some pages' ∧
      Placed g zoneSize pages' (setUsage (fun _ => m) z (zonePageCnt zoneSize) memusage) usage zones
        live := by
  have hpages : PagesOf g pages (zoneRun zoneSize z :: runs zoneSize usage zones live) :=
    h.pages.perm (List.Perm.swap _ _ _)
  obtain ⟨pages', hcall, hpages'⟩ := hpages.freed
  have hrest : Described zoneSize memusage zones live :=
    ⟨fun z' hz' => h.described.small z' (List.mem_cons_of_mem z hz'), h.described.large⟩
  exact ⟨pages', hcall, hpages', hrest.keep hpages fun p hp => setUsage_out _ _ hp⟩

end Placed

end ControlRTT.Kernel.Slab
